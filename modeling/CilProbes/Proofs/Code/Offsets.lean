import CilProbes.Proofs.Code.Program

/-!
# Instructions by offset

What is found at an offset was decoded there (`offsetTable_sound`); where no two instructions were decoded at one
offset, each is found at its own (`offsetTable_complete`).
-/

namespace CilProbes.InstructionStream

variable {s : InstructionStream} {offset : UInt32} {id : InstrId} {e : InstrId × Instruction}

/-- Notes at which offset an instruction was decoded. -/
def noteOffset (table : OffsetTable) (e : InstrId × Instruction) : OffsetTable :=
  match e.2.offset with
  | some offset => table.insert offset e.1
  | none => table

theorem noteOffset_getElem? (table : OffsetTable) (e : InstrId × Instruction) (offset : UInt32) :
    (noteOffset table e)[offset]? = if e.2.offset = some offset then some e.1 else table[offset]? := by
  unfold noteOffset
  cases e.2.offset with
  | none => rfl
  | some found =>
    rw [Std.TreeMap.getElem?_insert]
    simp only [Std.LawfulEqCmp.compare_eq_iff_eq, Option.some_inj]

theorem foldl_noteOffset_sound {table : OffsetTable} {es : List (InstrId × Instruction)}
    (h : (es.foldl noteOffset table)[offset]? = some id) :
    (∃ e ∈ es, e.1 = id ∧ e.2.offset = some offset) ∨ table[offset]? = some id := by
  induction es generalizing table with
  | nil => exact .inr h
  | cons e es ih =>
    rcases ih h with ⟨e', he', hid⟩ | h
    · exact .inl ⟨e', List.mem_cons_of_mem _ he', hid⟩
    · rw [noteOffset_getElem?] at h
      split at h
      · next ho => exact .inl ⟨e, List.mem_cons_self, Option.some_inj.mp h, ho⟩
      · exact .inr h

theorem foldl_noteOffset_isSome {table : OffsetTable} {es : List (InstrId × Instruction)}
    (h : table[offset]?.isSome ∨ ∃ e ∈ es, e.2.offset = some offset) :
    (es.foldl noteOffset table)[offset]?.isSome := by
  induction es generalizing table with
  | nil => exact h.resolve_right fun ⟨_, he, _⟩ => List.not_mem_nil he
  | cons e es ih =>
    refine ih ?_
    rw [noteOffset_getElem?]
    split
    · exact .inl rfl
    · next ho =>
      refine h.imp_right fun ⟨e', he', ho'⟩ => ?_
      rcases List.mem_cons.mp he' with rfl | he'
      · exact absurd ho' ho
      · exact ⟨e', he', ho'⟩

theorem offsetTable_sound (h : s.offsetTable[offset]? = some id) : ∃ i, (id, i) ∈ s.entries ∧ i.offset = some offset := by
  rcases foldl_noteOffset_sound h with ⟨e, he, rfl, ho⟩ | h
  · exact ⟨e.2, he, ho⟩
  · rw [Std.TreeMap.getElem?_emptyc] at h
    cases h

/-- No two instructions were decoded at one offset. -/
def DistinctOffsets (s : InstructionStream) : Prop :=
  ∀ e ∈ s.entries, ∀ e' ∈ s.entries, ∀ offset, e.2.offset = some offset → e'.2.offset = some offset → e.1 = e'.1

theorem offsetTable_complete (hs : s.DistinctOffsets) (he : e ∈ s.entries) (ho : e.2.offset = some offset) :
    s.offsetTable[offset]? = some e.1 := by
  have hsome : (s.entries.foldl noteOffset ∅)[offset]?.isSome := foldl_noteOffset_isSome (.inr ⟨e, he, ho⟩)
  obtain ⟨id, hid⟩ := Option.isSome_iff_exists.mp hsome
  obtain ⟨i, hi, ho'⟩ := offsetTable_sound (s := s) hid
  rw [hs e he _ hi offset ho ho']
  exact hid

end CilProbes.InstructionStream
