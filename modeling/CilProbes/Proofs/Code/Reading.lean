import CilProbes.Proofs.Bytes.Fields
import CilProbes.Proofs.Code.Program
import CilProbes.Proofs.Outcome

/-!
# Reading back an instruction

An instruction whose operand fits its opcode is read as it was written (`readsAt_instruction`): the same opcode and
operand, with the offsets of its targets in the layout that it was written with. It takes up as many bytes as its size
says (`length_instruction`).
-/

namespace CilProbes

/-- What is read where an instruction was written at an offset of a layout. -/
def Layout.decoded (l : Layout) (start : Nat) (i : Instruction) : DecodedInstruction where
  instruction :=
    { opcode := i.opcode, operand := i.operand.mapTargets fun _ => .unresolved, offset := some (UInt32.ofNat start) }
  targets := i.targets.map fun t => UInt32.ofNat ((l.starts.get? t).getD 0)

namespace Layout

variable {l : Layout}

/-! ## Distances -/

theorem toInt_ofInt8 {d : Int} (h : -128 ≤ d ∧ d < 128) : (Int8.ofInt d).toInt = d := by
  rw [Int8.toInt_ofInt]
  exact Int.bmod_eq_of_le (by simpa using h.1) (by simpa using h.2)

theorem toInt_ofInt32 {d : Int} (h : -2 ^ 31 ≤ d ∧ d < 2 ^ 31) : (Int32.ofInt d).toInt = d := by
  rw [Int32.toInt_ofInt]
  exact Int.bmod_eq_of_le (by simpa using h.1) (by simpa using h.2)

/-- The distance to a target that is placed. -/
def span (l : Layout) (next : Nat) (t : InstrId) : Int :=
  Int.ofNat ((l.starts.get? t).getD 0) - Int.ofNat next

theorem distance_ok {next : Nat} {t : InstrId} {d : Int} (h : l.distance next t = .ok d) :
    (l.starts.get? t).isSome ∧ d = l.span next t := by
  unfold distance distance? at h
  cases hs : l.starts.get? t with
  | none => rw [hs] at h; cases h
  | some start =>
    rw [hs] at h
    cases h
    exact ⟨rfl, by unfold span; rw [hs]; rfl⟩

theorem wide_ok {cause : Int → Malformation} {next : Nat} {t : InstrId} {out : List UInt8}
    (h : l.wide cause next t = .ok out) :
    (l.starts.get? t).isSome ∧ out.length = 4 ∧ ∃ v : Int32, v.toInt = l.span next t ∧ Reader.Reads Reader.int32 out v := by
  unfold wide at h
  obtain ⟨d, hd, h⟩ := bind_ok.mp h
  obtain ⟨hs, rfl⟩ := distance_ok hd
  split at h
  · next hrange =>
    cases h
    exact ⟨hs, Little.length_encode .., _, toInt_ofInt32 hrange, Reader.reads_int32 _⟩
  · cases h

/-! ## Operands -/

/-- Size of an operand of a kind. -/
def operandSize (kind : OperandKind) : Operand → Nat
  | .switch targets => 4 + 4 * targets.length
  | _ => kind.size?.getD 0

/-- The operand as read, with its targets still to be looked up. -/
def readOperand (l : Layout) (next : Nat) (o : Operand) : Operand × List Int :=
  (o.mapTargets fun _ => .unresolved, o.targets.map (l.span next))

theorem reads_immediate {kind : OperandKind} {v : Immediate} (hfit : (Operand.immediate v).fits kind = true) :
    (immediate v).length = kind.size?.getD 0 ∧
      Reader.Reads (Reader.operand kind) (immediate v) (.immediate v, []) := by
  cases v <;> cases kind <;> cases hfit
  case int8.int8 v => exact ⟨rfl, (Reader.reads_int8 v).bind_pure⟩
  case uint8.uint8 v => exact ⟨rfl, (Reader.reads_byte v).bind_pure⟩
  case uint16.uint16 v => exact ⟨Little.length_encode .., (Reader.reads_uint16 v).bind_pure⟩
  case int32.int32 v => exact ⟨Little.length_encode .., (Reader.reads_int32 v).bind_pure⟩
  case int64.int64 v => exact ⟨Little.length_encode .., (Reader.reads_int64 v).bind_pure⟩
  case float32.float32 bits => exact ⟨Little.length_encode .., (Reader.reads_uint32 bits).bind_pure⟩
  case float64.float64 bits => exact ⟨Little.length_encode .., (Reader.reads_uint64 bits).bind_pure⟩

theorem reads_target {next : Nat} {kind : OperandKind} {t : InstrId} {out : List UInt8}
    (hfit : (Operand.target t).fits kind = true) (h : l.operand next kind (.target t) = .ok out) :
    (l.starts.get? t).isSome ∧ out.length = kind.size?.getD 0 ∧
      Reader.Reads (Reader.operand kind) out (l.readOperand next (.target t)) := by
  cases kind <;> cases hfit
  case shortTarget =>
    obtain ⟨d, hd, h⟩ := bind_ok.mp h
    obtain ⟨hs, rfl⟩ := distance_ok hd
    split at h
    · next hrange =>
      cases h
      refine ⟨hs, rfl, ?_⟩
      have := (Reader.reads_int8 (Int8.ofInt (l.span next t))).bind_pure
        (f := fun v => ((.target .unresolved, [v.toInt]) : Operand × List Int))
      rwa [toInt_ofInt8 hrange] at this
    · cases h
  case target =>
    obtain ⟨hs, hlen, v, hv, hreads⟩ := wide_ok h
    refine ⟨hs, hlen, ?_⟩
    have := hreads.bind_pure (f := fun v => ((.target .unresolved, [v.toInt]) : Operand × List Int))
    rwa [hv] at this

/-- The cells of a switch table. -/
theorem reads_cells {next : Nat} {ts : List InstrId} {pieces : List (List UInt8)}
    (h : List.Forall₂ (fun t out => l.wide .switchDisplacement next t = .ok out) ts pieces) :
    (∀ t ∈ ts, (l.starts.get? t).isSome) ∧ pieces.flatten.length = 4 * ts.length ∧
      List.Forall₂ (Reader.Reads (Int32.toInt <$> Reader.int32)) pieces (ts.map (l.span next)) := by
  induction h with
  | nil => exact ⟨fun _ ht => absurd ht List.not_mem_nil, rfl, .nil⟩
  | @cons t piece ts pieces ht _ ih =>
    obtain ⟨hs, hlen, v, hv, hreads⟩ := wide_ok ht
    obtain ⟨hss, hlens, hall⟩ := ih
    refine ⟨List.forall_mem_cons.mpr ⟨hs, hss⟩, ?_, .cons ?_ hall⟩
    · rw [List.flatten_cons, List.length_append, hlen, hlens, List.length_cons]
      omega
    · have := hreads.map Int32.toInt
      rwa [hv] at this

theorem reads_switch {next : Nat} {ts : List InstrId} {out : List UInt8}
    (h : l.operand next .switch (.switch ts) = .ok out) :
    (∀ t ∈ ts, (l.starts.get? t).isSome) ∧ out.length = 4 + 4 * ts.length ∧
      Reader.Reads (Reader.operand .switch) out (l.readOperand next (.switch ts)) := by
  unfold operand at h
  dsimp only at h
  split at h
  · cases h
  · next hcount =>
    obtain ⟨pieces, hp, h⟩ := bind_ok.mp h
    cases h
    obtain ⟨hs, hlen, hall⟩ := reads_cells (forall₂_of_mapM hp)
    refine ⟨hs, ?_, ?_⟩
    · rw [List.length_append, hlen]
      exact congrArg (· + 4 * ts.length) (Little.length_encode ..)
    · have hword : Reader.Reads (Reader.word 4) (Field.uint32 (UInt32.ofNat ts.length)) ts.length := by
        show Reader.Reads (Reader.word 4) (Little.encode 4 (UInt32.ofNat ts.length).toNat) ts.length
        rw [toNat_word (Nat.not_le.mp hcount)]
        exact Reader.reads_word_of_lt (Nat.not_le.mp hcount)
      have htimes := Reader.reads_times hall
      rw [List.length_map] at htimes
      refine hword.bind (htimes.bind_nil ?_)
      have hnames : List.replicate ts.length InstrId.unresolved = ts.map fun _ => .unresolved := List.map_const'.symm
      rw [hnames]
      exact Reader.Reads.pure _

/-- An operand is read as it was written, and its targets are all placed. -/
theorem operand_ok {next : Nat} {kind : OperandKind} {o : Operand} {out : List UInt8} (hfit : o.fits kind = true)
    (h : l.operand next kind o = .ok out) :
    (∀ t ∈ o.targets, (l.starts.get? t).isSome) ∧ out.length = operandSize kind o ∧
      Reader.Reads (Reader.operand kind) out (l.readOperand next o) := by
  cases o with
  | none =>
    cases h
    cases kind <;> cases hfit
    exact ⟨fun _ ht => absurd ht List.not_mem_nil, rfl, Reader.Reads.pure _⟩
  | immediate v =>
    cases h
    exact ⟨fun _ ht => absurd ht List.not_mem_nil, reads_immediate hfit⟩
  | token t =>
    cases h
    cases kind <;> cases hfit
    exact ⟨fun _ ht => absurd ht List.not_mem_nil, Little.length_encode .., (Reader.reads_uint32 t.value).bind_pure⟩
  | target t =>
    obtain ⟨hs, hreads⟩ := reads_target hfit h
    exact ⟨List.forall_mem_singleton.mpr hs, hreads⟩
  | switch ts =>
    cases kind <;> cases hfit
    exact reads_switch h

/-! ## Instructions -/

theorem length_opcode (o : Opcode) : (opcode o).length = o.size := by
  unfold opcode Opcode.size
  split <;> rfl

theorem size_eq (i : Instruction) : i.size = i.opcode.size + operandSize i.kind i.operand := by
  unfold Instruction.size operandSize
  cases i.operand <;> rfl

theorem size_pos (i : Instruction) : 0 < i.size := by
  rw [size_eq]
  unfold Opcode.size
  split <;> omega

/-- The byte in front of extended opcodes is no opcode of the base page. -/
theorem code_ne_of_base {o : Opcode} (h : o.page = 0) : o.code ≠ OpcodeTable.extendedPage := by
  intro hcode
  have hl := o.listed
  rw [h, hcode] at hl
  have hnone : OpcodeTable.lookup 0 OpcodeTable.extendedPage = none := by decide +kernel
  rw [hnone] at hl
  cases hl

/-- The page and the place that are read for an opcode. -/
theorem reads_opcode {α : Type} {f : UInt8 × UInt8 → Reader α} {o : Opcode} {more : List UInt8} {a : α} {start : Nat}
    (h : Reader.ReadsAt (f (o.page, o.code)) (start + o.size) more a) :
    Reader.ReadsAt (Reader.byte >>= fun first =>
      if first = OpcodeTable.extendedPage then (fun code => (first, code)) <$> Reader.byte >>= f
      else pure (0, first) >>= f) start (opcode o ++ more) a := by
  rw [← length_opcode] at h
  unfold opcode at h ⊢
  split
  · next hpage =>
    rw [if_pos hpage] at h
    refine (Reader.reads_byte o.page start).bind ?_
    rw [if_pos hpage]
    exact ((Reader.reads_byte o.code).map _ _).bind h
  · next hpage =>
    have hbase : o.page = 0 := (List.mem_pair.mp o.page_of_listed).resolve_right hpage
    rw [if_neg hpage] at h
    refine (Reader.reads_byte o.code start).bind ?_
    rw [if_neg (code_ne_of_base hbase), ← hbase]
    exact h

variable {start : Nat} {i : Instruction} {out : List UInt8}

theorem instruction_ok (h : l.instruction start i = .ok out) :
    ∃ operand, l.operand (start + i.size) i.kind i.operand = .ok operand ∧ out = opcode i.opcode ++ operand := by
  obtain ⟨operand, ho, h⟩ := bind_ok.mp h
  cases h
  exact ⟨operand, ho, rfl⟩

theorem length_instruction (hfit : i.operand.fits i.kind = true) (h : l.instruction start i = .ok out) :
    out.length = i.size := by
  obtain ⟨operand, ho, rfl⟩ := instruction_ok h
  rw [List.length_append, length_opcode, (operand_ok hfit ho).2.1, size_eq]

theorem placed_of_instruction (hfit : i.operand.fits i.kind = true) (h : l.instruction start i = .ok out) :
    ∀ t ∈ i.targets, (l.starts.get? t).isSome := by
  obtain ⟨operand, ho, _⟩ := instruction_ok h
  exact (operand_ok hfit ho).1

/-- The offset of a target, from the distance to it. -/
theorem target_span {l : Layout} {next : Nat} {t : InstrId} (hl : ∀ id n, l.starts.get? id = some n → n < wordLimit)
    (ht : (l.starts.get? t).isSome) :
    Reader.target start next (l.span next t) = .ok (UInt32.ofNat ((l.starts.get? t).getD 0)) := by
  obtain ⟨n, hn⟩ := Option.isSome_iff_exists.mp ht
  have hlt := hl t n hn
  unfold Reader.target span
  rw [hn, Option.getD_some]
  have hsum : Int.ofNat next + (Int.ofNat n - Int.ofNat next) = Int.ofNat n := by omega
  rw [hsum]
  exact if_pos ⟨Int.natCast_nonneg n, Int.ofNat_lt.mpr hlt⟩

/-- An instruction is read as it was written, with the offsets of its targets. -/
theorem readsAt_instruction (hfit : i.operand.fits i.kind = true) (h : l.instruction start i = .ok out)
    (hstart : start < wordLimit) (hl : ∀ id n, l.starts.get? id = some n → n < wordLimit) :
    Reader.ReadsAt Reader.instruction start out (l.decoded start i) := by
  obtain ⟨operand, ho, rfl⟩ := instruction_ok h
  obtain ⟨hplaced, hsize, hreads⟩ := operand_ok hfit ho
  have hfind : Opcode.find? i.opcode.page i.opcode.code = some i.opcode := Opcode.find?_eq_some i.opcode.listed
  have htargets : ((l.readOperand (start + i.size) i.operand).2.mapM (Reader.target start (start + i.size))) =
      .ok (i.targets.map fun t => UInt32.ofNat ((l.starts.get? t).getD 0)) := by
    refine mapM_of_forall₂ (List.forall₂_map_left_iff.mpr (List.forall₂_map_right_iff.mpr ?_))
    exact List.forall₂_same.mpr fun t ht => target_span hl (hplaced t ht)
  have hnext : start + i.opcode.size + operand.length = start + i.size := by rw [hsize, size_eq, Nat.add_assoc]
  refine Reader.ReadsAt.pos_bind (reads_opcode ?_)
  dsimp only
  rw [hfind]
  refine (hreads _).bind_nil (Reader.ReadsAt.pos_bind ?_)
  rw [hnext]
  refine (Reader.reads_ofExcept htargets _).bind_nil ?_
  rw [if_neg (Nat.not_le.mpr hstart)]
  exact Reader.ReadsAt.pure _ _

end Layout

end CilProbes
