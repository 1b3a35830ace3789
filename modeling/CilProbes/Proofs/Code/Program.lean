import CilProbes.Code.Encode
import Mathlib.Algebra.Ring.Nat
import Mathlib.Data.List.Nodup

/-!
# The program of a stream

A stream is arranged if its program order names every instruction of the arena once (`Arranged`), and well formed if every
operand fits its opcode, too (`WellFormed`). Reading gives such streams, and every edit keeps them so (`wellFormed_ofArray`,
`WellFormed.insertAt`, `WellFormed.map`). The place of an instruction in program order (`place`) is the handle that it
has when the stream is written and read again (`written`).
-/

namespace CilProbes

theorem toNat_word {n : Nat} (h : n < wordLimit) : (UInt32.ofNat n).toNat = n := by
  rw [UInt32.toNat_ofNat']
  exact Nat.mod_eq_of_lt h

theorem Operand.fits_mapTargets (f : InstrId → InstrId) (o : Operand) (kind : OperandKind) :
    (o.mapTargets f).fits kind = o.fits kind := by
  cases o <;> cases kind <;> rfl

theorem Operand.mapTargets_mapTargets (f g : InstrId → InstrId) (o : Operand) :
    (o.mapTargets f).mapTargets g = o.mapTargets (g ∘ f) := by
  cases o <;> simp [mapTargets]

theorem Operand.mapTargets_id (o : Operand) : (o.mapTargets fun id => id) = o := by
  cases o <;> simp [mapTargets]

theorem Operand.mapTargets_congr {f g : InstrId → InstrId} {o : Operand} (h : ∀ t ∈ o.targets, f t = g t) :
    o.mapTargets f = o.mapTargets g := by
  cases o with
  | target t => exact congrArg Operand.target (h t (List.mem_singleton_self t))
  | switch ts => exact congrArg Operand.switch (List.map_congr_left h)
  | none | immediate | token => rfl

theorem Instruction.mapTargets_eq (f : InstrId → InstrId) (i : Instruction) :
    i.mapTargets f = { i with operand := i.operand.mapTargets f } := by
  obtain ⟨opcode, operand, offset⟩ := i
  cases operand <;> rfl

theorem Instruction.targets_mapTargets (f : InstrId → InstrId) (i : Instruction) :
    (i.mapTargets f).targets = i.targets.map f := by
  rw [mapTargets_eq]
  unfold targets Operand.targets
  cases i.operand <;> rfl

theorem Instruction.mapTargets_mapTargets (f g : InstrId → InstrId) (i : Instruction) :
    (i.mapTargets f).mapTargets g = i.mapTargets (g ∘ f) := by
  simp only [mapTargets_eq, Operand.mapTargets_mapTargets]

theorem Instruction.mapTargets_congr {f g : InstrId → InstrId} {i : Instruction} (h : ∀ t ∈ i.targets, f t = g t) :
    i.mapTargets f = i.mapTargets g := by
  rw [mapTargets_eq, mapTargets_eq, Operand.mapTargets_congr h]

namespace InstructionStream

/-- The handles in program order. -/
def ids (s : InstructionStream) : List InstrId :=
  s.order.toList

/-- The instructions in program order. -/
def program (s : InstructionStream) : List Instruction :=
  s.entries.map Prod.snd

/-- The handle of the place that an instruction has in program order. -/
def place (s : InstructionStream) (id : InstrId) : InstrId :=
  ⟨s.ids.idxOf id⟩

/-- The offset at which the instruction at a place of the program starts. -/
def startAt (s : InstructionStream) (k : Nat) : Nat :=
  ((s.program.take k).map Instruction.size).sum

/-- The stream as it is read when it was written: in program order, each instruction at its offset. -/
def written (s : InstructionStream) : InstructionStream :=
  ofArray (s.program.mapIdx fun k i =>
    { i with operand := i.operand.mapTargets s.place, offset := some (UInt32.ofNat (s.startAt k)) }).toArray

/-- The program order names every instruction of the arena once. -/
def Arranged (s : InstructionStream) : Prop :=
  s.ids.Perm ((List.range s.arena.size).map InstrId.mk)

/-- The program order names every instruction of the arena once, and every operand fits its opcode. -/
structure WellFormed (s : InstructionStream) : Prop where
  nodup : s.ids.Nodup
  mem_ids : ∀ id, id ∈ s.ids ↔ id.index < s.arena.size
  fits : ∀ i ∈ s.arena, i.operand.fits i.kind = true

variable {s t : InstructionStream} {id : InstrId} {i : Instruction} {index : Nat}

theorem get?_eq_some : s.get? id = some i ↔ ∃ h : id.index < s.arena.size, s.arena[id.index] = i :=
  Array.getElem?_eq_some_iff

theorem mem_entries {entry : InstrId × Instruction} :
    entry ∈ s.entries ↔ entry.1 ∈ s.ids ∧ s.get? entry.1 = some entry.2 := by
  unfold entries ids
  rw [List.mem_filterMap]
  constructor
  · rintro ⟨id, hid, h⟩
    obtain ⟨i, hi, rfl⟩ := Option.map_eq_some_iff.mp h
    exact ⟨hid, hi⟩
  · rintro ⟨hid, h⟩
    exact ⟨entry.1, hid, by rw [h]; rfl⟩

/-! ## Arranged streams -/

theorem nodup_map_mk (n : Nat) : ((List.range n).map InstrId.mk).Nodup :=
  List.nodup_range.map fun _ _ h => congrArg InstrId.index h

theorem mem_map_mk {n : Nat} : id ∈ (List.range n).map InstrId.mk ↔ id.index < n := by
  rw [List.mem_map]
  constructor
  · rintro ⟨k, hk, rfl⟩
    exact List.mem_range.mp hk
  · intro h
    exact ⟨id.index, List.mem_range.mpr h, rfl⟩

theorem arranged_iff : s.Arranged ↔ s.ids.Nodup ∧ ∀ id, id ∈ s.ids ↔ id.index < s.arena.size := by
  constructor
  · intro h
    exact ⟨h.nodup_iff.mpr (nodup_map_mk _), fun id => h.mem_iff.trans mem_map_mk⟩
  · rintro ⟨hnodup, hmem⟩
    exact (List.perm_ext_iff_of_nodup hnodup (nodup_map_mk _)).mpr fun id => (hmem id).trans mem_map_mk.symm

theorem Arranged.nodup (hs : s.Arranged) : s.ids.Nodup :=
  (arranged_iff.mp hs).1

theorem Arranged.mem_ids (hs : s.Arranged) : id ∈ s.ids ↔ id.index < s.arena.size :=
  (arranged_iff.mp hs).2 id

theorem Arranged.exists_get? (hs : s.Arranged) (h : id ∈ s.ids) : ∃ i, s.get? id = some i :=
  ⟨_, get?_eq_some.mpr ⟨hs.mem_ids.mp h, rfl⟩⟩

theorem Arranged.map_fst_entries (hs : s.Arranged) : s.entries.map Prod.fst = s.ids := by
  unfold entries
  rw [List.map_filterMap]
  show s.ids.filterMap _ = _
  rw [← List.filterMap_some (l := s.ids), List.filterMap_filterMap]
  refine List.filterMap_congr fun id hid => ?_
  obtain ⟨i, hi⟩ := hs.exists_get? hid
  simp [hi]

theorem Arranged.entries_getElem? (hs : s.Arranged) {k : Nat} (h : s.ids[k]? = some id)
    (hi : s.get? id = some i) : s.entries[k]? = some (id, i) := by
  rw [← hs.map_fst_entries, List.getElem?_map, Option.map_eq_some_iff] at h
  obtain ⟨entry, hentry, rfl⟩ := h
  have := (mem_entries.mp (List.mem_of_getElem? hentry)).2
  rw [hi] at this
  cases this
  exact hentry

/-! ## The entries of a well-formed stream -/

theorem WellFormed.arranged (hs : s.WellFormed) : s.Arranged :=
  arranged_iff.mpr ⟨hs.nodup, hs.mem_ids⟩

theorem WellFormed.exists_get? (hs : s.WellFormed) (h : id ∈ s.ids) : ∃ i, s.get? id = some i :=
  hs.arranged.exists_get? h

theorem WellFormed.fits_entries (hs : s.WellFormed) : ∀ e ∈ s.entries, e.2.operand.fits e.2.kind = true :=
  fun _ he => hs.fits _ (Array.mem_of_getElem? (mem_entries.mp he).2)

theorem WellFormed.map_fst_entries (hs : s.WellFormed) : s.entries.map Prod.fst = s.ids :=
  hs.arranged.map_fst_entries

theorem WellFormed.length_program (hs : s.WellFormed) : s.program.length = s.ids.length := by
  rw [program, List.length_map, ← hs.map_fst_entries, List.length_map]

theorem WellFormed.nodup_entries (hs : s.WellFormed) : (s.entries.map Prod.fst).Nodup := by
  rw [hs.map_fst_entries]
  exact hs.nodup

theorem WellFormed.entries_getElem? (hs : s.WellFormed) {k : Nat} (h : s.ids[k]? = some id)
    (hi : s.get? id = some i) : s.entries[k]? = some (id, i) :=
  hs.arranged.entries_getElem? h hi

theorem WellFormed.map_some_program (hs : s.WellFormed) : s.program.map some = s.ids.map s.get? := by
  rw [← hs.map_fst_entries, program, List.map_map, List.map_map]
  exact List.map_congr_left fun e he => (mem_entries.mp he).2.symm

theorem WellFormed.program_getElem? (hs : s.WellFormed) {k : Nat} (h : s.ids[k]? = some id) :
    s.program[k]? = s.get? id := by
  have hk : (s.program.map some)[k]? = (s.ids.map s.get?)[k]? := by rw [hs.map_some_program]
  rw [List.getElem?_map, List.getElem?_map, h] at hk
  cases hp : s.program[k]? with
  | none => rw [hp] at hk; cases hk
  | some i => rw [hp] at hk; exact Option.some_inj.mp hk

theorem WellFormed.place_eq (hs : s.WellFormed) {k : Nat} (h : s.ids[k]? = some id) : s.place id = ⟨k⟩ := by
  obtain ⟨hk, rfl⟩ := List.getElem?_eq_some_iff.mp h
  exact congrArg InstrId.mk (hs.nodup.idxOf_getElem k hk)

/-- The places grow along the program order. -/
theorem WellFormed.pairwise_place (hs : s.WellFormed) :
    s.ids.Pairwise fun x y => (s.place x).index < (s.place y).index := by
  refine List.pairwise_iff_getElem.mpr fun j k hj hk hjk => ?_
  rw [hs.place_eq (List.getElem?_eq_getElem hj), hs.place_eq (List.getElem?_eq_getElem hk)]
  exact hjk

/-! ## Streams that are read -/

theorem ids_ofArray (is : Array Instruction) : (ofArray is).ids = (List.range is.size).map InstrId.mk := by
  refine List.ext_getElem (by simp [ids, ofArray]) fun k _ _ => ?_
  simp [ids, ofArray]

theorem arranged_ofArray (is : Array Instruction) : (ofArray is).Arranged := by
  unfold Arranged
  rw [ids_ofArray]
  exact .refl _

theorem wellFormed_ofArray {is : Array Instruction} (h : ∀ i ∈ is, i.operand.fits i.kind = true) :
    (ofArray is).WellFormed where
  nodup := (arranged_ofArray is).nodup
  mem_ids _ := (arranged_ofArray is).mem_ids
  fits := h

theorem program_ofArray {is : Array Instruction} (h : ∀ i ∈ is, i.operand.fits i.kind = true) :
    (ofArray is).program = is.toList := by
  have hs := wellFormed_ofArray h
  have hlen : (ofArray is).ids.length = is.size := by rw [ids_ofArray, List.length_map, List.length_range]
  refine List.ext_getElem (hs.length_program.trans hlen) fun k hk hk' => ?_
  have hid : (ofArray is).ids[k]? = some ⟨k⟩ := by
    rw [ids_ofArray, List.getElem?_map, List.getElem?_range (by simpa using hk')]
    rfl
  have hentry := hs.entries_getElem? hid (get?_eq_some.mpr ⟨hk', rfl⟩)
  refine Option.some_inj.mp ?_
  rw [← List.getElem?_eq_getElem hk, program, List.getElem?_map, hentry]
  rfl

/-! ## Edits -/

theorem position?_eq (s : InstructionStream) (id : InstrId) : s.position? id = s.ids.idxOf? id :=
  List.idxOf?_toArray id s.ids

theorem idxOf?_append {α : Type} [BEq α] [LawfulBEq α] {front : List α} {a : α} (h : a ∉ front) (back : List α) :
    (front ++ a :: back).idxOf? a = some front.length := by
  induction front with
  | nil => simp [List.idxOf?_cons]
  | cons x front ih =>
    rw [List.mem_cons, not_or] at h
    rw [List.cons_append, List.idxOf?_cons, if_neg (by simpa using Ne.symm h.1), ih h.2]
    rfl

theorem insertIdx_append {α : Type} (front back : List α) (a : α) :
    (front ++ back).insertIdx front.length a = front ++ a :: back := by
  induction front with
  | nil => rfl
  | cons x front ih => rw [List.cons_append, List.length_cons, List.insertIdx_succ_cons, ih, List.cons_append]

theorem ids_insertAt (h : s.insertAt index i = .ok t) :
    index ≤ s.ids.length ∧ t.ids = s.ids.insertIdx index s.nextId := by
  unfold insertAt at h
  split at h
  · next hle =>
    cases h
    exact ⟨hle, Array.toList_insertIdx hle⟩
  · cases h

theorem insertAt_ok {front back : List InstrId} (h : s.ids = front ++ back) (i : Instruction) :
    ∃ t, s.insertAt front.length i = .ok t ∧ t.arena = s.arena.push i ∧ t.ids = front ++ s.nextId :: back := by
  have hle : front.length ≤ s.order.size := by
    rw [← Array.length_toList]
    show front.length ≤ s.ids.length
    rw [h, List.length_append]
    exact Nat.le_add_right ..
  refine ⟨_, dif_pos hle, rfl, ?_⟩
  show (s.order.insertIdx _ _ hle).toList = _
  rw [Array.toList_insertIdx]
  show s.ids.insertIdx _ _ = _
  rw [h, insertIdx_append]

theorem insertBefore_ok {target : InstrId} : s.insertBefore target i = .ok t ↔
    ∃ index, s.position? target = some index ∧ s.insertAt index i = .ok t := by
  unfold insertBefore
  cases s.position? target with
  | none => exact ⟨fun h => (by cases h), fun ⟨_, hnone, _⟩ => (by cases hnone)⟩
  | some index =>
    constructor
    · exact fun h => ⟨index, rfl, h⟩
    · rintro ⟨_, hindex, h⟩
      cases hindex
      exact h

theorem Arranged.insertAt (hs : s.Arranged) (h : s.insertAt index i = .ok t) : t.Arranged := by
  obtain ⟨hle, hids⟩ := ids_insertAt h
  unfold Arranged at hs ⊢
  rw [arena_insertAt h, show (s.push i).arena = s.arena.push i from rfl, Array.size_push, List.range_succ, List.map_append,
    hids]
  have hfirst := (List.perm_insertIdx s.nextId s.ids hle).trans (hs.cons s.nextId)
  exact hfirst.trans (List.perm_append_singleton _ _).symm

theorem WellFormed.insertAt (hs : s.WellFormed) (hfit : i.operand.fits i.kind = true)
    (h : s.insertAt index i = .ok t) : t.WellFormed := by
  have ht := hs.arranged.insertAt h
  have harena : t.arena = s.arena.push i := arena_insertAt h
  refine ⟨ht.nodup, fun _ => ht.mem_ids, ?_⟩
  intro j hj
  rw [harena, Array.mem_push] at hj
  rcases hj with hj | rfl
  · exact hs.fits j hj
  · exact hfit

theorem WellFormed.map {f : Instruction → Instruction} (hs : s.WellFormed)
    (hf : ∀ i ∈ s.arena, (f i).operand.fits (f i).kind = true) : (s.map f).WellFormed where
  nodup := hs.nodup
  mem_ids id := by
    rw [show (s.map f).arena = s.arena.map f from rfl, Array.size_map]
    exact hs.mem_ids id
  fits j hj := by
    obtain ⟨i, hi, rfl⟩ := Array.mem_map.mp hj
    exact hf i hi

end InstructionStream

end CilProbes
