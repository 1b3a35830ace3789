import CilProbes.Proofs.Body.Clauses

/-!
# Reading back method bodies

A well-formed body that is written is read again as the body with its instructions in program order and every reference
replaced by a place (`parse_encode`). Only the stack depth may differ: a tiny header has no room for it (`written`).
-/

namespace CilProbes.MethodBody

/-- The code and the clauses are well formed. -/
structure WellFormed (b : MethodBody) : Prop where
  code : b.code.WellFormed
  clauses : ∀ c ∈ b.clauses, c.WellFormed

/-- The code is well formed, and just the filter clauses have filters. -/
structure Writable (b : MethodBody) : Prop where
  code : b.code.WellFormed
  filters : ∀ c ∈ b.clauses, c.filterStart.isSome = c.kind.filter

theorem WellFormed.writable {b : MethodBody} (hb : b.WellFormed) : b.Writable :=
  ⟨hb.code, fun c hc => (hb.clauses c hc).filter⟩

/-- The body gets a tiny header. -/
def hasTinyHeader (b : MethodBody) : Bool :=
  b.code.startAt b.code.length < 64 && b.maxStack ≤ 8 && b.localSignature == 0 && !b.initLocals && b.clauses.isEmpty

/-- The body without the types of clauses that do not catch by type; they are not read. -/
def typed (b : MethodBody) : MethodBody :=
  { b with clauses := b.clauses.map ExceptionClause.typed }

theorem WellFormed.typed_eq {b : MethodBody} (hb : b.WellFormed) : b.typed = b := by
  have hclauses : b.clauses.map ExceptionClause.typed = b.clauses :=
    (List.map_congr_left fun c hc => (hb.clauses c hc).typed_eq).trans (List.map_id _)
  exact congrArg (fun clauses => { b with clauses }) hclauses

/-- The body as it is read when it was written; with a tiny header its stack depth is 8. -/
def written (b : MethodBody) : MethodBody :=
  { b with
    maxStack := if b.hasTinyHeader then 8 else b.maxStack
    code := b.code.written
    clauses := b.clauses.map (ExceptionClause.mapReferences b.code.place) }

/-- The same body, but for short branches that have become long. -/
structure Widened (b b' : MethodBody) : Prop where
  code : b.code.Widened b'.code
  rest : b' = b.withCode b'.code

variable {b b' : MethodBody} {e : EncodedBody}

theorem Widened.writable (h : b.Widened b') (hb : b.Writable) : b'.Writable where
  code := h.code.wellFormed hb.code
  filters := by
    rw [h.rest]
    exact hb.filters

theorem Widened.wellFormed (h : b.Widened b') (hb : b.WellFormed) : b'.WellFormed where
  code := h.code.wellFormed hb.code
  clauses := by
    rw [h.rest]
    exact hb.clauses

/-! ## Headers -/

theorem tiny_header {n : Nat} (h : n < 64) :
    (UInt8.ofNat (n * 4) ||| Flags.tinyFormat.toUInt8) &&& 3 = Flags.tinyFormat.toUInt8 ∧
      ((UInt8.ofNat (n * 4) ||| Flags.tinyFormat.toUInt8) / 4).toNat = n := by
  have : ∀ n : Fin 64, (UInt8.ofNat (n * 4) ||| Flags.tinyFormat.toUInt8) &&& 3 = Flags.tinyFormat.toUInt8 ∧
      ((UInt8.ofNat (n * 4) ||| Flags.tinyFormat.toUInt8) / 4).toNat = n := by decide
  exact this ⟨n, h⟩

theorem parse_tiny {code : List UInt8} {s : InstructionStream} (hlt : code.length < 64)
    (h : InstructionStream.decode code = .ok s) :
    parse ((UInt8.ofNat (code.length * 4) ||| Flags.tinyFormat.toUInt8) :: code) = .ok { maxStack := 8, code := s } := by
  obtain ⟨hformat, hsize⟩ := tiny_header hlt
  unfold parse
  dsimp only
  rw [if_pos hformat, hsize, if_neg (Nat.lt_irrefl _), List.take_length, h]
  rfl

/-- The flags of a fat header. -/
def headerFlags (b : MethodBody) (hasClauses : Bool) : UInt16 :=
  (Flags.fatFormat ||| (if b.initLocals then Flags.initLocals else 0) |||
    (if hasClauses then Flags.moreSections else 0)) ||| 0x3000

theorem headerFlags_eq (b : MethodBody) (hasClauses : Bool) :
    (b.headerFlags hasClauses).toNat / 0x1000 = 3 ∧
      (b.headerFlags hasClauses &&& Flags.moreSections != 0) = hasClauses ∧
      (b.headerFlags hasClauses &&& Flags.initLocals != 0) = b.initLocals ∧
      (UInt8.ofNat (b.headerFlags hasClauses).toNat &&& 3) = Flags.fatFormat.toUInt8 := by
  unfold headerFlags
  cases b.initLocals <;> cases hasClauses <;> decide

theorem reads_header (b : MethodBody) {codeSize : Nat} (hasClauses : Bool) (h : codeSize < wordLimit) :
    Reader.Reads readHeader (b.header codeSize hasClauses)
      ((b.headerFlags hasClauses).toNat, b.maxStack, codeSize, b.localSignature) := by
  unfold header
  simp only [List.append_assoc]
  refine (Reader.reads_word_of_lt (UInt16.toNat_lt _)).bind ((Reader.reads_uint16 b.maxStack).bind ?_)
  refine (Reader.reads_word_of_lt h).bind ?_
  exact (Reader.reads_uint32 b.localSignature).bind_pure

theorem length_header (b : MethodBody) (codeSize : Nat) (hasClauses : Bool) :
    (b.header codeSize hasClauses).length = headerSize := by
  simp [header, Field.uint16, Field.uint32, Little.length_encode, headerSize]

theorem parse_header (b : MethodBody) (codeSize : Nat) (hasClauses : Bool) (tail : List UInt8) :
    parse (b.header codeSize hasClauses ++ tail) = parseFat (b.header codeSize hasClauses ++ tail) := by
  obtain ⟨rest, hrest⟩ : ∃ rest,
      b.header codeSize hasClauses = UInt8.ofNat (b.headerFlags hasClauses).toNat :: rest := ⟨_, rfl⟩
  rw [hrest, List.cons_append]
  unfold parse
  dsimp only
  rw [(b.headerFlags_eq hasClauses).2.2.2, if_neg (by decide), if_pos rfl]

/-- The number of bytes between the code and the sections after it. -/
def gap (codeSize : Nat) : Nat :=
  ClauseSection.aligned (headerSize + codeSize) - (headerSize + codeSize)

theorem length_padding (codeSize : Nat) : (Field.padding 4 (headerSize + codeSize)).length = gap codeSize := by
  unfold Field.padding gap ClauseSection.aligned
  rw [List.length_replicate]
  omega

theorem aligned_eq (codeSize : Nat) :
    ClauseSection.aligned (headerSize + codeSize) = headerSize + (codeSize + gap codeSize) := by
  unfold gap ClauseSection.aligned
  omega

/-- What follows a fat header is the code, unless there is too little of it, and then the sections. -/
theorem parse_header_append (b : MethodBody) {codeSize : Nat} (hasClauses : Bool) (tail : List UInt8)
    (hlimit : codeSize < wordLimit) : parse (b.header codeSize hasClauses ++ tail) =
      if tail.length < codeSize then .error .outOfBounds
      else
        InstructionStream.decode (tail.take codeSize) >>= fun code =>
        (if hasClauses then ClauseSection.chain (tail.drop (codeSize + gap codeSize)) else pure []) >>= fun records =>
        (records.mapM (ClauseRecord.resolve code.offsetTable codeSize)).map fun clauses => { b with code, clauses } := by
  obtain ⟨hsize, hmore, hinit, _⟩ := b.headerFlags_eq hasClauses
  have hheader := (b.reads_header hasClauses hlimit 0).run tail
  have hlen := b.length_header codeSize hasClauses
  have hcode : (b.header codeSize hasClauses ++ tail).drop headerSize = tail := by
    rw [← hlen, List.drop_left]
  have hsections : (b.header codeSize hasClauses ++ tail).drop (ClauseSection.aligned (headerSize + codeSize)) =
      tail.drop (codeSize + gap codeSize) := by
    rw [aligned_eq, ← List.drop_drop, hcode]
  have hshort : (headerSize < headerSize ∨
      (b.header codeSize hasClauses ++ tail).length < headerSize + codeSize) ↔ tail.length < codeSize := by
    rw [List.length_append, hlen]
    omega
  rw [parse_header]
  unfold parseFat
  rw [bind_of_ok hheader]
  simp only [hsize, show 3 * 4 = headerSize from rfl, hshort, hcode, UInt16.ofNat_toNat, hmore, hinit, hsections]
  split
  · rfl
  · cases InstructionStream.decode (tail.take codeSize) with
    | error fault => rfl
    | ok code =>
      cases hasClauses with
      | false => rfl
      | true =>
        cases ClauseSection.chain (tail.drop (codeSize + gap codeSize)) with
        | error fault => rfl
        | ok records =>
          cases records.mapM (ClauseRecord.resolve code.offsetTable codeSize) <;> rfl

/-- A body with a fat header, read from its parts. -/
theorem parse_fat (b : MethodBody) {code : List UInt8} (tail : List UInt8) {hasClauses : Bool} {s : InstructionStream}
    {records : List ClauseRecord} {clauses : List ExceptionClause} (hlimit : code.length < wordLimit)
    (hcode : InstructionStream.decode code = .ok s)
    (hrecords : (if hasClauses then ClauseSection.chain (tail.drop (gap code.length)) else pure []) = .ok records)
    (hclauses : records.mapM (ClauseRecord.resolve s.offsetTable code.length) = .ok clauses) :
    parse (b.header code.length hasClauses ++ (code ++ tail)) = .ok { b with code := s, clauses } := by
  have hlong : ¬ (code ++ tail).length < code.length := by
    rw [List.length_append]
    omega
  rw [parse_header_append b hasClauses _ hlimit, if_neg hlong, List.take_left, ← List.drop_drop, List.drop_left]
  exact bind_ok.mpr ⟨s, hcode, bind_ok.mpr ⟨records, hrecords, map_ok.mpr ⟨clauses, hclauses, rfl⟩⟩⟩

/-! ## Bodies -/

theorem resolve_records {t : InstructionStream} {e : EncodedCode} (he : t.EncodedAs e) (ht : t.WellFormed)
    {clauses : List ExceptionClause} {records : List ClauseRecord}
    (hfilters : ∀ c ∈ clauses, c.filterStart.isSome = c.kind.filter)
    (h : clauses.mapM (ExceptionClause.toRecord e) = .ok records) :
    records.mapM (ClauseRecord.resolve t.written.offsetTable e.code.length) =
      .ok ((clauses.map ExceptionClause.typed).map (ExceptionClause.mapReferences t.place)) := by
  have hall := forall₂_of_mapM h
  clear h
  induction hall with
  | nil => rfl
  | cons hr _ ih =>
    rw [List.mapM_cons, resolve_toRecord he ht (hfilters _ List.mem_cons_self) hr,
      ih fun c hc => hfilters c (List.mem_cons_of_mem _ hc)]
    rfl

theorem isTiny_eq {code : EncodedCode} (hb : b.code.WellFormed) (hc : b.code.EncodedAs code)
    {records : List ClauseRecord} (hlen : records.length = b.clauses.length) :
    b.isTiny code.code records = b.hasTinyHeader := by
  have hcode : code.code.length = b.code.startAt b.code.length := hc.length_code hb
  have hempty : records.isEmpty = b.clauses.isEmpty := by
    rw [Bool.eq_iff_iff, List.isEmpty_iff_length_eq_zero, List.isEmpty_iff_length_eq_zero, hlen]
  unfold isTiny hasTinyHeader
  rw [hcode, hempty]

theorem written_of_tiny (h : b.hasTinyHeader = true) : b.written = { maxStack := 8, code := b.code.written } := by
  unfold written
  rw [if_pos h]
  simp only [hasTinyHeader, Bool.and_eq_true, Bool.not_eq_true', beq_iff_eq, List.isEmpty_iff] at h
  obtain ⟨⟨⟨_, hlocals⟩, hinit⟩, hclauses⟩ := h
  rw [hlocals, hinit, hclauses]
  rfl

theorem hasTinyHeader_typed (b : MethodBody) : b.typed.hasTinyHeader = b.hasTinyHeader := by
  unfold hasTinyHeader typed
  rw [List.isEmpty_map]

theorem written_of_large (h : b.hasTinyHeader = false) : b.typed.written = { b with
    code := b.code.written
    clauses := (b.clauses.map ExceptionClause.typed).map (ExceptionClause.mapReferences b.code.place) } := by
  unfold written
  rw [hasTinyHeader_typed, h]
  rfl

/-- Code behind a tiny header, behind a fat one, or behind a fat one and in front of a section. -/
inductive Assembled (b : MethodBody) (code : List UInt8) : List ClauseRecord → List UInt8 → Prop
  | tiny : b.isTiny code [] = true →
      Assembled b code [] ((UInt8.ofNat (code.length * 4) ||| Flags.tinyFormat.toUInt8) :: code)
  | bare : b.isTiny code [] = false → code.length < wordLimit →
      Assembled b code [] (b.header code.length false ++ (code ++ []))
  | full {records : List ClauseRecord} (content : List UInt8) : b.isTiny code records = false →
      code.length < wordLimit → records ≠ [] → ClauseSection.encode records = .ok content →
      Assembled b code records
        (b.header code.length true ++ (code ++ (Field.padding 4 (headerSize + code.length) ++ content)))

theorem length_of_isTiny {code : List UInt8} {records : List ClauseRecord} (h : b.isTiny code records = true) :
    code.length < 64 := by
  simp only [isTiny, Bool.and_eq_true, decide_eq_true_eq] at h
  exact h.1.1.1.1

/-- A body is put together in one of three ways. -/
theorem assemble_ok {code : EncodedCode} (h : b.assemble code = .ok e) : ∃ records,
    b.clauses.mapM (ExceptionClause.toRecord code) = .ok records ∧ Assembled b code.code records e.bytes ∧
      e.starts = code.starts := by
  obtain ⟨records, hrecords, h⟩ := bind_ok.mp h
  refine ⟨records, hrecords, ?_⟩
  dsimp only at h
  split at h
  · next hsmall =>
    cases h
    obtain rfl : records = [] := by
      simp only [isTiny, Bool.and_eq_true, List.isEmpty_iff] at hsmall
      exact hsmall.2
    exact ⟨.tiny hsmall, rfl⟩
  · next hlarge =>
    have hlarge := Bool.eq_false_iff.mpr hlarge
    split at h
    · cases h
    · next hlimit =>
      have hlimit := Nat.not_le.mp hlimit
      cases records with
      | nil =>
        cases h
        have hbare := Assembled.bare hlarge hlimit
        rw [List.append_nil] at hbare
        exact ⟨hbare, rfl⟩
      | cons r records =>
        obtain ⟨content, hcontent, h⟩ := bind_ok.mp h
        cases h
        have hfull := Assembled.full content hlarge hlimit (List.cons_ne_nil r records) hcontent
        rw [← List.append_assoc, ← List.append_assoc, ← length_header b code.code.length true,
          ← List.length_append] at hfull
        exact ⟨hfull, rfl⟩

theorem starts_of_assemble {code : EncodedCode} (h : b.assemble code = .ok e) : e.starts = code.starts := by
  obtain ⟨-, -, -, hstarts⟩ := assemble_ok h
  exact hstarts

/-- A body that was put together from written code is read as the body. -/
theorem parse_assemble_typed {code : EncodedCode} (hb : b.Writable) (hc : b.code.EncodedAs code)
    (h : b.assemble code = .ok e) : parse e.bytes = .ok b.typed.written := by
  obtain ⟨records, hrecords, hbytes, -⟩ := assemble_ok h
  have hresolve := resolve_records hc hb.code hb.filters hrecords
  have htiny := isTiny_eq hb.code hc (forall₂_of_mapM hrecords).length_eq.symm
  have hdecode := hc.decode hb.code
  generalize e.bytes = bytes at hbytes ⊢
  cases hbytes with
  | tiny hsmall =>
    rw [written_of_tiny (b.hasTinyHeader_typed.trans (htiny ▸ hsmall)), parse_tiny (length_of_isTiny hsmall) hdecode]
    rfl
  | bare hlarge hlimit =>
    rw [written_of_large (htiny ▸ hlarge)]
    exact b.parse_fat [] hlimit hdecode rfl hresolve
  | full content hlarge hlimit hfull hcontent =>
    have hchain : ClauseSection.chain
        ((Field.padding 4 (headerSize + code.code.length) ++ content).drop (gap code.code.length)) = .ok records := by
      rw [← length_padding, List.drop_left]
      exact ClauseSection.chain_encode hcontent
    rw [written_of_large (htiny ▸ hlarge)]
    exact b.parse_fat _ hlimit hdecode hchain hresolve

/-- A well-formed body that was put together from written code is read as the body. -/
theorem parse_assemble {code : EncodedCode} (hb : b.WellFormed) (hc : b.code.EncodedAs code)
    (h : b.assemble code = .ok e) : parse e.bytes = .ok b.written ∧ e.starts = code.starts := by
  have hparse := parse_assemble_typed hb.writable hc h
  rw [hb.typed_eq] at hparse
  exact ⟨hparse, starts_of_assemble h⟩

/-- A body is written in two steps, its code and what is put together around it. -/
theorem encode_steps (h : b.encode = .ok e b') : ∃ code stream, InstructionStream.encode b.code = .ok code stream ∧
    b' = b.withCode stream ∧ (b.withCode stream).assemble code = .ok e := by
  unfold encode at h
  split at h
  · cases h
  · next code stream hcode =>
    split at h
    · next bytes hbytes =>
      cases h
      exact ⟨code, stream, hcode, rfl, hbytes⟩
    · cases h

theorem encode_ok (hb : b.code.WellFormed) (h : b.encode = .ok e b') :
    b.Widened b' ∧ ∃ code, b'.code.EncodedAs code ∧ b'.assemble code = .ok e := by
  obtain ⟨code, stream, hcode, rfl, hassemble⟩ := encode_steps h
  obtain ⟨hw, hc⟩ := InstructionStream.encode_ok hb hcode
  exact ⟨⟨hw, rfl⟩, code, hc, hassemble⟩

/-- A well-formed body that is written is read again, up to the handles of its instructions. -/
theorem parse_encode (hb : b.WellFormed) (h : b.encode = .ok e b') :
    b.Widened b' ∧ parse e.bytes = .ok b'.written ∧
      ∃ code, b'.code.EncodedAs code ∧ e.starts = code.starts := by
  obtain ⟨hwidened, code, hc, hbytes⟩ := encode_ok hb.code h
  obtain ⟨hparse, hstarts⟩ := parse_assemble (hwidened.wellFormed hb) hc hbytes
  exact ⟨hwidened, hparse, code, hc, hstarts⟩

end CilProbes.MethodBody
