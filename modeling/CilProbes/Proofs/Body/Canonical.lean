import CilProbes.Proofs.Body.Building
import CilProbes.Proofs.Body.Settled

/-!
# Writing whatever was read

A body that was read can be written. Its instructions start at the offsets at which they are found
(`InstructionStream.starts_of_offsetTable`), so the boundaries of a clause lie where its record said, and the clause is
written as that record (`ClauseRecord.toRecord_resolve`). Only the clauses of a chain of sections may be too many for the
one section that is written; with no more than a section can hold, the body is written, read as it was, and written in
the same bytes again (`MethodBody.exists_encode_of_parse`).
-/

namespace CilProbes

namespace InstructionStream

variable {s : InstructionStream} {data : List UInt8} {id : InstrId} {i : Instruction} {offset : UInt32}

/-- A decoded instruction has the offset at which it starts. -/
theorem offset_of_decode (h : decode data = .ok s) (hget : s.get? id = some i) :
    i.offset = some (UInt32.ofNat (s.startAt id.index)) := by
  have hwritten : s.written.arena[id.index]? = some i := by
    rw [written_of_decode h]
    exact hget
  rw [written_getElem?] at hwritten
  obtain ⟨j, -, rfl⟩ := Option.map_eq_some_iff.mp hwritten
  rfl

theorem startAt_lt_of_decode (h : decode data = .ok s) (hid : id.index < s.arena.size) :
    s.startAt id.index < wordLimit := by
  apply (encodedAs_of_decode h).startAt_lt
  rw [(parsed_of_decode h).ids_eq, List.length_map, List.length_range]
  exact hid

/-- What is found at an offset starts there. -/
theorem starts_of_offsetTable (h : decode data = .ok s) (hfound : s.offsetTable[offset]? = some id) :
    s.layout.starts.get? id = some offset.toNat := by
  have hs := parsed_of_decode h
  obtain ⟨i, hi, hoffset⟩ := offsetTable_sound hfound
  obtain ⟨hlt, hget⟩ := get?_eq_some.mp (mem_entries.mp hi).2
  have hplace : s.ids[id.index]? = some id := by
    rw [hs.ids_eq, List.getElem?_map, List.getElem?_range hlt]
    rfl
  rw [offset_of_decode h (mem_entries.mp hi).2, Option.some_inj] at hoffset
  rw [← hoffset, toNat_word (startAt_lt_of_decode h hlt)]
  exact hs.wellFormed.starts_layout hplace

end InstructionStream

/-! ## Clauses -/

namespace ClauseRecord

variable {s : InstructionStream} {data : List UInt8} {c : ExceptionClause} {r : ClauseRecord}
  {offset length : UInt32} {id : InstrId} {id? : Option InstrId}

theorem offsetIn_of_startOf (h : InstructionStream.decode data = .ok s) (hid : startOf s.offsetTable offset = .ok id) :
    ExceptionClause.offsetIn ⟨data, s.layout.starts⟩ (some id) = .ok offset.toNat := by
  unfold startOf at hid
  split at hid
  · next found hfound =>
    cases hid
    have hstart : s.layout.starts.get? id = some offset.toNat := InstructionStream.starts_of_offsetTable h hfound
    unfold ExceptionClause.offsetIn EncodedCode.offsetOrEnd?
    dsimp only
    rw [hstart]
  · cases hid

/-- A range that was found ends where its record said, also at the end of the code. -/
theorem offsetIn_of_endOf (h : InstructionStream.decode data = .ok s)
    (hid : endOf s.offsetTable data.length offset length = .ok id?) :
    ExceptionClause.offsetIn ⟨data, s.layout.starts⟩ id? = .ok (offset.toNat + length.toNat) := by
  unfold endOf at hid
  dsimp only at hid
  split at hid
  · cases hid
  · next hlimit =>
    split at hid
    · next hend =>
      cases hid
      unfold ExceptionClause.offsetIn EncodedCode.offsetOrEnd?
      dsimp only
      rw [if_pos (by omega), hend]
    · obtain ⟨id, hstart, rfl⟩ := map_ok.mp hid
      rw [offsetIn_of_startOf h hstart, toNat_word (Nat.not_le.mp hlimit)]

/-- The record without what it was not read for: the word that is neither the type of a clause nor its filter. -/
def used (r : ClauseRecord) : ClauseRecord :=
  { r with classOrFilter := if r.kind.filter || r.kind.isTyped then r.classOrFilter else 0 }

/-- A clause is written as the record that it was read from. -/
theorem toRecord_resolve (h : InstructionStream.decode data = .ok s)
    (hc : r.resolve s.offsetTable data.length = .ok c) : c.toRecord ⟨data, s.layout.starts⟩ = .ok r.used := by
  obtain ⟨tryStart, hTryStart, hc⟩ := bind_ok.mp hc
  obtain ⟨tryEnd, hTryEnd, hc⟩ := bind_ok.mp hc
  obtain ⟨handlerStart, hHandlerStart, hc⟩ := bind_ok.mp hc
  obtain ⟨handlerEnd, hHandlerEnd, hc⟩ := bind_ok.mp hc
  have hTryStart := offsetIn_of_startOf h hTryStart
  have hTryEnd := offsetIn_of_endOf h hTryEnd
  have hHandlerStart := offsetIn_of_startOf h hHandlerStart
  have hHandlerEnd := offsetIn_of_endOf h hHandlerEnd
  have hordered : ¬ (r.tryOffset.toNat + r.tryLength.toNat < r.tryOffset.toNat ∨
      r.handlerOffset.toNat + r.handlerLength.toNat < r.handlerOffset.toNat) := by
    omega
  dsimp only at hc
  split at hc
  · next hfilter =>
    obtain ⟨filter, hFilter, hc⟩ := bind_ok.mp hc
    obtain ⟨filterStart, hFilterStart, rfl⟩ := map_ok.mp hFilter
    have hFilterStart := offsetIn_of_startOf h hFilterStart
    have hword : UInt32.ofNat <$> ExceptionClause.offsetIn ⟨data, s.layout.starts⟩ (some filterStart) =
        .ok r.classOrFilter := by
      rw [hFilterStart]
      exact congrArg Except.ok UInt32.ofNat_toNat
    cases hc
    unfold ExceptionClause.toRecord used
    simp only [bind_of_ok hTryStart, bind_of_ok hTryEnd, bind_of_ok hHandlerStart, bind_of_ok hHandlerEnd,
      if_neg hordered, bind_of_ok hword, hfilter, if_true, Bool.true_or, Nat.add_sub_cancel_left, UInt32.ofNat_toNat]
    rfl
  · next hfilter =>
    cases hc
    unfold ExceptionClause.toRecord used
    simp only [bind_of_ok hTryStart, bind_of_ok hTryEnd, bind_of_ok hHandlerStart, bind_of_ok hHandlerEnd,
      if_neg hordered, Bool.eq_false_iff.mpr hfilter, Bool.false_or, Nat.add_sub_cancel_left, UInt32.ofNat_toNat]
    rfl

end ClauseRecord

/-! ## Bodies -/

theorem ClauseSection.encode_of_le {records : List ClauseRecord} (h : records.length ≤ 699050) :
    ∃ bytes, encode records = .ok bytes := by
  have hfat : ¬ 0xFFFFFF < sizeOf ClauseRecord.fatSize records.length := by
    unfold sizeOf ClauseRecord.fatSize
    omega
  unfold encode
  dsimp only
  rw [if_neg hfat]
  split
  · exact ⟨_, rfl⟩
  · exact ⟨_, rfl⟩

namespace MethodBody

variable {b : MethodBody} {data : List UInt8} {records : List ClauseRecord}

/-- Code of a size that has a field, and clauses that one section can hold, make a body. -/
theorem assemble_of_records {code : EncodedCode} (hrecords : b.clauses.mapM (ExceptionClause.toRecord code) = .ok records)
    (hlimit : code.code.length < wordLimit) (hlen : records.length ≤ 699050) : ∃ e, b.assemble code = .ok e := by
  unfold assemble
  rw [bind_of_ok hrecords]
  dsimp only
  split
  · exact ⟨_, rfl⟩
  · rw [if_neg (Nat.not_le.mpr hlimit)]
    split
    · exact ⟨_, rfl⟩
    · obtain ⟨content, hcontent⟩ := ClauseSection.encode_of_le hlen
      rw [bind_of_ok hcontent]
      exact ⟨_, rfl⟩

theorem ReadFrom.mapM_toRecord (h : b.ReadFrom data records) :
    b.clauses.mapM (ExceptionClause.toRecord ⟨data, b.code.layout.starts⟩) = .ok (records.map ClauseRecord.used) := by
  apply mapM_of_forall₂
  rw [List.forall₂_map_right_iff]
  exact (forall₂_of_mapM h.clauses).flip.imp fun c r hr => ClauseRecord.toRecord_resolve h.code hr

/-- A body that was read is written as it stands, if one section can hold its clauses. -/
theorem ReadFrom.encode (h : b.ReadFrom data records) (hlen : b.clauses.length ≤ 699050) :
    ∃ e, b.encode = .ok e b ∧ b.assemble ⟨data, b.code.layout.starts⟩ = .ok e := by
  have hcount : (records.map ClauseRecord.used).length ≤ 699050 := by
    rwa [List.length_map, (forall₂_of_mapM h.clauses).length_eq]
  obtain ⟨e, he⟩ := assemble_of_records h.mapM_toRecord h.limit hcount
  refine ⟨e, ?_, he⟩
  rw [encode_eq_assemble h.code, he]

/--
Whatever is read as a body is written, unless one section cannot hold its clauses. Writing leaves the body as it is. What
was written is read as the same body, but for the stack depth that a tiny header does not say, and is written in the same
bytes again.
-/
theorem exists_encode_of_parse (h : parse data = .ok b) (hlen : b.clauses.length ≤ 699050) : ∃ e, b.encode = .ok e b ∧
    parse e.bytes = .ok { b with maxStack := if e.isTiny then 8 else b.maxStack } ∧
    ({ b with maxStack := if e.isTiny then 8 else b.maxStack } : MethodBody).encode =
      .ok e { b with maxStack := if e.isTiny then 8 else b.maxStack } := by
  have hb := decoded_of_parse h
  obtain ⟨bytes, records, hread⟩ := readFrom_of_parse h
  obtain ⟨e, hencode, hassemble⟩ := hread.encode hlen
  have hcode := InstructionStream.encodedAs_of_decode hread.code
  have hsettled : { b with maxStack := if e.isTiny then 8 else b.maxStack } = b.settled := by
    rw [isTiny_assemble hb.wellFormed hcode hassemble]
    rfl
  refine ⟨e, hencode, ?_, ?_⟩
  · rw [hsettled, ← hb.written_eq]
    exact (parse_assemble hb.wellFormed hcode hassemble).1
  · rw [hsettled]
    exact (hb.encode_settled hencode).2

/-- A long header, two sections in a chain, a clause up to the end of the code, and bits and bytes that are not read. -/
def chainedBody : List UInt8 :=
  [0x3F, 0x40, 2, 0, 5, 0, 0, 0, 1, 0, 0, 0x11, 0xAA, 0xAA, 0xAA, 0xAA, 0x00, 0xDE, 1, 0xDC, 0x2A, 0, 0, 0,
    0x85, 16, 0, 0, 2, 0, 0, 0, 3, 3, 0, 1, 7, 0, 0, 0,
    0x41, 28, 0, 0, 9, 0, 0, 0, 0, 0, 0, 0, 3, 0, 0, 0, 3, 0, 0, 0, 2, 0, 0, 0, 1, 0, 0, 0, 0xFF]

/-- The clauses of the chain come to stand in one small section. -/
theorem exists_encode_of_parse_chained : ∃ b e, parse chainedBody = .ok b ∧ b.clauses.length = 2 ∧ b.encode = .ok e b ∧
    e.bytes.length = 48 ∧ parse e.bytes = .ok { b with maxStack := if e.isTiny then 8 else b.maxStack } := by
  obtain ⟨b, hb, hlen, e, b', he, hsize⟩ : ∃ b, parse chainedBody = .ok b ∧ b.clauses.length = 2 ∧
      ∃ e b', b.encode = .ok e b' ∧ e.bytes.length = 48 := by
    decide +kernel
  obtain ⟨e', he', hparse, -⟩ := exists_encode_of_parse hb (by omega)
  cases he.symm.trans he'
  exact ⟨b, e, hb, hlen, he, hsize, hparse⟩

end MethodBody

end CilProbes
