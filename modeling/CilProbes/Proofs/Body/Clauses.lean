import CilProbes.Body.Format
import CilProbes.Proofs.Code.Decoding
import CilProbes.Proofs.Code.RoundTrip

/-!
# Reading back exception clauses

A clause keeps a filter where its kind says so, and a type where it has neither filter, nor is a finally or fault clause
(`ExceptionClause.WellFormed`). The record that is written for such a clause stands for the clause with its references
replaced by places (`resolve_toRecord`), and sections of records are read as they were written (`chain_encode`).
-/

namespace CilProbes

namespace ExceptionClause

/-- The clause has a filter just if it is a filter clause, and a type only if it catches by type. -/
structure WellFormed (c : ExceptionClause) : Prop where
  filter : c.filterStart.isSome = c.kind.filter
  untyped : c.kind.isTyped = false → c.classToken = ⟨0⟩

/-- The clause without its type, unless it catches by type; so it is read when it was written. -/
def typed (c : ExceptionClause) : ExceptionClause :=
  { c with classToken := ⟨if c.kind.isTyped then c.classToken.value else 0⟩ }

theorem WellFormed.typed_eq {c : ExceptionClause} (h : c.WellFormed) : c.typed = c := by
  have htoken : (⟨if c.kind.isTyped = true then c.classToken.value else 0⟩ : Token) = c.classToken := by
    split
    · rfl
    · next hk => exact (h.untyped (Bool.eq_false_iff.mpr hk)).symm
  exact congrArg (fun classToken => { c with classToken }) htoken

theorem WellFormed.mapReferences {c : ExceptionClause} (h : c.WellFormed) (f : InstrId → InstrId) :
    (c.mapReferences f).WellFormed where
  filter := Option.isSome_map.trans h.filter
  untyped := h.untyped

theorem mapReferences_id (c : ExceptionClause) : (c.mapReferences fun id => id) = c := by
  simp [mapReferences]

theorem mapReferences_mapReferences (f g : InstrId → InstrId) (c : ExceptionClause) :
    (c.mapReferences f).mapReferences g = c.mapReferences (g ∘ f) := by
  simp [mapReferences]

theorem references_mapReferences (f : InstrId → InstrId) (c : ExceptionClause) :
    (c.mapReferences f).references = c.references.map f := by
  obtain ⟨kind, tryStart, tryEnd, handlerStart, handlerEnd, filterStart, classToken⟩ := c
  cases tryEnd <;> cases handlerEnd <;> cases filterStart <;> rfl

theorem mem_references {c : ExceptionClause} {id : InstrId} :
    id ∈ c.references ↔ c.filterStart = some id ∨ c.tryStart = id ∨ c.tryEnd = some id ∨ c.handlerStart = id ∨
      c.handlerEnd = some id := by
  simp [references, List.mem_filterMap, eq_comm]

theorem mapReferences_congr {f g : InstrId → InstrId} {c : ExceptionClause} (h : ∀ id ∈ c.references, f id = g id) :
    c.mapReferences f = c.mapReferences g := by
  simp only [mem_references] at h
  have hTryEnd : c.tryEnd.map f = c.tryEnd.map g :=
    Option.map_congr fun id hid => h id (.inr (.inr (.inl hid)))
  have hHandlerEnd : c.handlerEnd.map f = c.handlerEnd.map g :=
    Option.map_congr fun id hid => h id (.inr (.inr (.inr (.inr hid))))
  have hFilter : c.filterStart.map f = c.filterStart.map g := Option.map_congr fun id hid => h id (.inl hid)
  unfold mapReferences
  rw [hTryEnd, hHandlerEnd, hFilter, h c.tryStart (.inr (.inl rfl)), h c.handlerStart (.inr (.inr (.inr (.inl rfl))))]

end ExceptionClause

/-! ## Records of written code -/

section Records

variable {t : InstructionStream} {e : EncodedCode} {c : ExceptionClause} {r : ClauseRecord}

theorem offsetIn_ok {id : Option InstrId} {offset : Nat} (h : ExceptionClause.offsetIn e id = .ok offset) :
    e.offsetOrEnd? id = some offset := by
  unfold ExceptionClause.offsetIn at h
  split at h
  · next found hfound =>
    cases h
    exact hfound
  · cases h

/-- An instruction of written code is found at its offset when the code is read. -/
theorem startOf_written (h : t.EncodedAs e) (ht : t.WellFormed) {id : InstrId} {offset : Nat}
    (hoffset : ExceptionClause.offsetIn e (some id) = .ok offset) :
    offset < wordLimit ∧
      ClauseRecord.startOf t.written.offsetTable (UInt32.ofNat offset) = .ok (t.place id) := by
  have hstart : e.starts.get? id = some offset := offsetIn_ok hoffset
  have hoffsets (k : Nat) (i : Instruction) (hi : t.written.arena[k]? = some i) :
      i.offset = some (UInt32.ofNat (t.startAt k)) := by
    rw [InstructionStream.written_getElem?] at hi
    obtain ⟨j, _, rfl⟩ := Option.map_eq_some_iff.mp hi
    rfl
  obtain ⟨hlimit, hfound⟩ := h.lookup_start ht (InstructionStream.size_written ht) hoffsets hstart
  refine ⟨hlimit, ?_⟩
  unfold ClauseRecord.startOf
  rw [show t.written.offsetTable[UInt32.ofNat offset]? = _ from hfound]

/-- The end of a range of written code is found again. -/
theorem endOf_written (h : t.EncodedAs e) (ht : t.WellFormed) {start stop : Nat} {id : Option InstrId}
    (hstop : ExceptionClause.offsetIn e id = .ok stop) (hle : start ≤ stop) :
    ClauseRecord.endOf t.written.offsetTable e.code.length (UInt32.ofNat start) (UInt32.ofNat (stop - start)) =
      .ok (id.map t.place) := by
  have hsum (hlimit : stop < wordLimit) :
      (UInt32.ofNat start).toNat + (UInt32.ofNat (stop - start)).toNat = stop := by
    rw [toNat_word (Nat.lt_of_le_of_lt hle hlimit), toNat_word (Nat.lt_of_le_of_lt (Nat.sub_le ..) hlimit),
      Nat.add_sub_cancel' hle]
  unfold ClauseRecord.endOf
  cases id with
  | none =>
    have hfound := offsetIn_ok hstop
    unfold EncodedCode.offsetOrEnd? at hfound
    dsimp only at hfound
    split at hfound
    · next hlimit =>
      cases hfound
      dsimp only
      rw [hsum hlimit, if_neg (Nat.not_le.mpr hlimit), if_pos rfl]
      rfl
    · cases hfound
  | some id =>
    obtain ⟨hlimit, hfound⟩ := startOf_written h ht hstop
    have hinside := h.start_lt_length ht (offsetIn_ok hstop)
    dsimp only
    rw [hsum hlimit, if_neg (Nat.not_le.mpr hlimit), if_neg (Nat.ne_of_lt hinside), hfound]
    rfl

/-- The record of a clause stands for the clause with its references replaced by places. -/
theorem resolve_toRecord (h : t.EncodedAs e) (ht : t.WellFormed) (hc : c.filterStart.isSome = c.kind.filter)
    (hr : c.toRecord e = .ok r) :
    r.resolve t.written.offsetTable e.code.length = .ok (c.typed.mapReferences t.place) := by
  obtain ⟨tryStart, hTryStart, hr⟩ := bind_ok.mp hr
  obtain ⟨tryEnd, hTryEnd, hr⟩ := bind_ok.mp hr
  obtain ⟨handlerStart, hHandlerStart, hr⟩ := bind_ok.mp hr
  obtain ⟨handlerEnd, hHandlerEnd, hr⟩ := bind_ok.mp hr
  dsimp only at hr
  split at hr
  · cases hr
  · next hordered =>
    rw [not_or, Nat.not_lt, Nat.not_lt] at hordered
    have hTry := startOf_written h ht hTryStart
    have hHandler := startOf_written h ht hHandlerStart
    have hTryStop := endOf_written h ht hTryEnd hordered.1
    have hHandlerStop := endOf_written h ht hHandlerEnd hordered.2
    unfold ClauseRecord.resolve
    cases hfilter : c.filterStart with
    | none =>
      have hkind : c.kind.filter = false := by rw [← hc, hfilter]; rfl
      rw [hfilter] at hr
      cases hr
      simp only [hTry.2, hHandler.2, hTryStop, hHandlerStop, hkind]
      unfold ExceptionClause.typed ExceptionClause.mapReferences
      rw [hfilter]
      rfl
    | some filter =>
      have hkind : c.kind.filter = true := by rw [← hc, hfilter]; rfl
      have huntyped : c.kind.isTyped = false := by unfold ClauseKind.isTyped; rw [hkind]; rfl
      rw [hfilter] at hr
      simp only [hkind, if_true] at hr
      obtain ⟨word, hword, hr⟩ := bind_ok.mp hr
      obtain ⟨filterStart, hFilterStart, rfl⟩ := map_ok.mp hword
      cases hr
      have hFilter := startOf_written h ht hFilterStart
      simp only [hTry.2, hHandler.2, hTryStop, hHandlerStop, hkind, hFilter.2, huntyped]
      unfold ExceptionClause.typed ExceptionClause.mapReferences
      rw [hfilter, huntyped]
      rfl

end Records

/-! ## Sections -/

theorem ofBits_bits (k : ClauseKind) : ClauseKind.ofBits k.bits = k := by
  obtain ⟨filter, finally_, fault⟩ := k
  cases filter <;> cases finally_ <;> cases fault <;> rfl

theorem bits_lt (k : ClauseKind) : k.bits < 8 := by
  obtain ⟨filter, finally_, fault⟩ := k
  cases filter <;> cases finally_ <;> cases fault <;> decide

namespace Reader

theorem reads_smallClause {r : ClauseRecord} (h : r.isSmall = true) : Reads smallClause r.small r := by
  simp only [ClauseRecord.isSmall, Bool.and_eq_true, decide_eq_true_eq, UInt32.le_iff_toNat_le] at h
  obtain ⟨⟨⟨hTryOffset, hTryLength⟩, hHandlerOffset⟩, hHandlerLength⟩ := h
  have hkind : r.kind.bits < 256 ^ 2 := Nat.lt_trans (bits_lt r.kind) (by decide)
  unfold ClauseRecord.small
  simp only [List.append_assoc]
  have hTryOffset : r.tryOffset.toNat < 256 ^ 2 := Nat.lt_succ_of_le hTryOffset
  have hTryLength : r.tryLength.toNat < 256 ^ 1 := Nat.lt_succ_of_le hTryLength
  have hHandlerOffset : r.handlerOffset.toNat < 256 ^ 2 := Nat.lt_succ_of_le hHandlerOffset
  have hHandlerLength : r.handlerLength.toNat < 256 ^ 1 := Nat.lt_succ_of_le hHandlerLength
  refine (reads_word_of_lt hkind).bind ((reads_word_of_lt hTryOffset).bind ((reads_word_of_lt hTryLength).bind ?_))
  refine (reads_word_of_lt hHandlerOffset).bind ((reads_word_of_lt hHandlerLength).bind ?_)
  simp only [ofBits_bits, UInt32.ofNat_toNat]
  exact (reads_uint32 r.classOrFilter).bind_pure

theorem reads_fatClause (r : ClauseRecord) : Reads fatClause r.fat r := by
  have hkind : r.kind.bits < 256 ^ 4 := Nat.lt_trans (bits_lt r.kind) (by decide)
  unfold ClauseRecord.fat
  simp only [List.append_assoc]
  refine (reads_word_of_lt hkind).bind ((reads_uint32 r.tryOffset).bind ((reads_uint32 r.tryLength).bind ?_))
  refine (reads_uint32 r.handlerOffset).bind ((reads_uint32 r.handlerLength).bind ?_)
  rw [ofBits_bits]
  exact (reads_uint32 r.classOrFilter).bind_pure

end Reader

namespace ClauseSection

variable {records : List ClauseRecord}

theorem length_small (r : ClauseRecord) : r.small.length = ClauseRecord.smallSize := by
  simp [ClauseRecord.small, Field.uint32, Little.length_encode, ClauseRecord.smallSize]

theorem length_fat (r : ClauseRecord) : r.fat.length = ClauseRecord.fatSize := by
  simp [ClauseRecord.fat, Field.uint32, Little.length_encode, ClauseRecord.fatSize]

theorem length_flatMap {write : ClauseRecord → List UInt8} {size : Nat} (hlen : ∀ c, (write c).length = size)
    (records : List ClauseRecord) : (records.flatMap write).length = records.length * size := by
  simp [List.length_flatMap, hlen]

/-- Records of one size are read one after another. -/
theorem run_times {r : Reader ClauseRecord} {write : ClauseRecord → List UInt8} {size : Nat} (hsize : 0 < size)
    (hlen : ∀ c, (write c).length = size) (hread : ∀ c ∈ records, Reader.Reads r (write c) c) :
    Reader.run (Reader.times ((records.flatMap write).length / size) r) (records.flatMap write) = .ok records := by
  have hall : List.Forall₂ (Reader.Reads r) (records.map write) records := by
    rw [List.forall₂_map_left_iff]
    exact List.forall₂_same.mpr hread
  rw [length_flatMap hlen, Nat.mul_div_cancel _ hsize, List.flatMap_def]
  exact (Reader.reads_times hall).run

/-- A chain of one section. -/
theorem chain_single {kind b1 b2 b3 : UInt8} {content : List UInt8} (hkind : kind &&& Flags.clauseSection ≠ 0)
    (hnext : kind &&& Flags.nextSection = 0)
    (hsize : size (kind &&& Flags.fatSection != 0) b1 b2 b3 = content.length + 4)
    (hrecords : ClauseSection.records (kind &&& Flags.fatSection != 0) content = .ok records) :
    chain (kind :: b1 :: b2 :: b3 :: content) = .ok records := by
  rw [chain, if_neg hkind]
  dsimp only
  rw [hsize, Nat.add_sub_cancel, List.take_length, if_neg (by omega), hrecords]
  dsimp only
  rw [if_pos hnext]

/-- A written section has as many bytes as its header says, and its content is read as the records. -/
theorem encode_ok {bytes : List UInt8} (h : encode records = .ok bytes) : ∃ kind b1 b2 b3 content,
    bytes = kind :: b1 :: b2 :: b3 :: content ∧ kind &&& Flags.clauseSection ≠ 0 ∧ kind &&& Flags.nextSection = 0 ∧
      size (kind &&& Flags.fatSection != 0) b1 b2 b3 = content.length + 4 ∧
      ClauseSection.records (kind &&& Flags.fatSection != 0) content = .ok records := by
  unfold encode at h
  dsimp only at h
  split at h
  · next hsmall =>
    obtain ⟨hsize, hall⟩ := hsmall
    cases h
    refine ⟨_, _, _, _, _, rfl, by decide, by decide, ?_, ?_⟩
    · show (UInt8.ofNat (sizeOf ClauseRecord.smallSize records.length)).toNat =
        (records.flatMap ClauseRecord.small).length + 4
      rw [UInt8.toNat_ofNat', Nat.mod_eq_of_lt (Nat.lt_succ_of_le hsize), length_flatMap length_small, sizeOf,
        Nat.add_comm]
    · exact run_times (by decide) length_small fun r hr => Reader.reads_smallClause (List.all_eq_true.mp hall r hr)
  · split at h
    · cases h
    · next hfat =>
      cases h
      have hlt : sizeOf ClauseRecord.fatSize records.length < 256 ^ 3 := Nat.lt_succ_of_le (Nat.not_lt.mp hfat)
      refine ⟨_, _, _, _, _, rfl, by decide, by decide, ?_, ?_⟩
      · show Little.decode (Little.encode 3 _) = (records.flatMap ClauseRecord.fat).length + 4
        rw [Little.decode_encode, Nat.mod_eq_of_lt hlt, length_flatMap length_fat, sizeOf, Nat.add_comm]
      · exact run_times (by decide) length_fat fun r _ => Reader.reads_fatClause r

/-- A section is read as the records that it was written for. -/
theorem chain_encode {bytes : List UInt8} (h : encode records = .ok bytes) : chain bytes = .ok records := by
  obtain ⟨kind, b1, b2, b3, content, rfl, hkind, hnext, hsize, hrecords⟩ := encode_ok h
  exact chain_single hkind hnext hsize hrecords

end ClauseSection

end CilProbes
