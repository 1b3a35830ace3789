import CilProbes.Proofs.Code.Program

/-!
# Offsets of a layout

A layout gives every instruction of a well-formed stream the sum of the sizes before it (`WellFormed.starts_ofEntries`).
Laying a stream out may widen short branches and changes nothing else (`Widened`, `settle_ok`).
-/

namespace CilProbes

namespace Layout

variable {l : Layout} {es : List (InstrId × Instruction)} {e : InstrId × Instruction}

theorem starts_foldl_place_of_notMem {id : InstrId} (h : id ∉ es.map Prod.fst) :
    (es.foldl place l).starts.get? id = l.starts.get? id := by
  induction es generalizing l with
  | nil => rfl
  | cons e es ih =>
    rw [List.map_cons, List.mem_cons, not_or] at h
    rw [List.foldl_cons, ih h.2]
    exact HandleTable.get?_set_of_ne _ _ h.1

/-- Every instruction is placed after those in front of it. -/
theorem starts_foldl_place (hnd : (es.map Prod.fst).Nodup) (hb : ∀ e ∈ es, e.1.index < l.starts.size) {k : Nat}
    (he : es[k]? = some e) :
    (es.foldl place l).starts.get? e.1 = some (l.size + ((es.take k).map fun e => e.2.size).sum) := by
  induction es generalizing l k with
  | nil => cases he
  | cons first es ih =>
    obtain ⟨hfirst, hnd⟩ := List.nodup_cons.mp hnd
    cases k with
    | zero =>
      cases he
      rw [List.foldl_cons, starts_foldl_place_of_notMem hfirst]
      exact HandleTable.get?_set _ _ (hb _ List.mem_cons_self)
    | succ k =>
      have hb' : ∀ e ∈ es, e.1.index < (l.place first).starts.size := fun e he =>
        (HandleTable.size_set ..).symm ▸ hb e (List.mem_cons_of_mem _ he)
      rw [List.foldl_cons, ih hnd hb' he, List.take_succ_cons, List.map_cons, List.sum_cons, ← Nat.add_assoc]
      rfl

theorem last_le_foldl_place (h : l.last ≤ l.size) : l.last ≤ (es.foldl place l).last := by
  induction es generalizing l with
  | nil => exact Nat.le_refl _
  | cons e es ih => exact Nat.le_trans h (ih (l := l.place e) (Nat.le_add_right ..))

/-- No instruction is placed after the last one. -/
theorem le_last_foldl_place {k : Nat} (hk : k < es.length) :
    l.size + ((es.take k).map fun e => e.2.size).sum ≤ (es.foldl place l).last := by
  induction es generalizing l k with
  | nil => cases hk
  | cons first es ih =>
    cases k with
    | zero => exact last_le_foldl_place (l := l.place first) (Nat.le_add_right ..)
    | succ k =>
      rw [List.take_succ_cons, List.map_cons, List.sum_cons, ← Nat.add_assoc]
      exact ih (l := l.place first) (Nat.lt_of_succ_lt_succ hk)

end Layout

namespace InstructionStream

variable {s t : InstructionStream} {id : InstrId} {k : Nat}

theorem startAt_eq (s : InstructionStream) (k : Nat) :
    s.startAt k = ((s.entries.take k).map fun e => e.2.size).sum := by
  unfold startAt program
  rw [← List.map_take, List.map_map]
  rfl

/-- The layout of a well-formed stream. -/
theorem WellFormed.starts_ofEntries (hs : s.WellFormed) (h : s.ids[k]? = some id) :
    (Layout.ofEntries s.arena.size s.entries).starts.get? id = some (s.startAt k) := by
  obtain ⟨i, hi⟩ := hs.exists_get? (List.mem_of_getElem? h)
  have hbound : ∀ e ∈ s.entries, e.1.index < (HandleTable.empty s.arena.size : StartTable).size := fun e he => by
    rw [HandleTable.empty, HandleTable.size, Array.size_replicate]
    exact (hs.mem_ids _).mp (mem_entries.mp he).1
  have := Layout.starts_foldl_place (l := { starts := .empty s.arena.size }) hs.nodup_entries hbound
    (hs.entries_getElem? h hi)
  rwa [Nat.zero_add, ← startAt_eq] at this

theorem WellFormed.starts_ofEntries_of_notMem (hs : s.WellFormed) (h : id ∉ s.ids) :
    (Layout.ofEntries s.arena.size s.entries).starts.get? id = none := by
  rw [← hs.map_fst_entries] at h
  exact (Layout.starts_foldl_place_of_notMem h).trans (HandleTable.get?_empty ..)

/-- Only instructions in program order are placed, each at its offset. -/
theorem WellFormed.starts_eq_some (hs : s.WellFormed) {start : Nat} :
    (Layout.ofEntries s.arena.size s.entries).starts.get? id = some start ↔
      id ∈ s.ids ∧ start = s.startAt (s.ids.idxOf id) := by
  by_cases hid : id ∈ s.ids
  · rw [hs.starts_ofEntries (List.getElem?_idxOf hid), Option.some_inj]
    exact ⟨fun h => ⟨hid, h.symm⟩, fun h => h.2.symm⟩
  · rw [hs.starts_ofEntries_of_notMem hid]
    exact ⟨fun h => (by cases h), fun h => absurd h.1 hid⟩

theorem WellFormed.startAt_le_last (hs : s.WellFormed) (hk : k < s.ids.length) :
    s.startAt k ≤ (Layout.ofEntries s.arena.size s.entries).last := by
  rw [← hs.map_fst_entries, List.length_map] at hk
  have := Layout.le_last_foldl_place (l := { starts := .empty s.arena.size }) hk
  rwa [Nat.zero_add, ← startAt_eq] at this

/-! ## Widening -/

/-- The same code, but for short branches that have become long. -/
structure Widened (s t : InstructionStream) : Prop where
  order : t.order = s.order
  size : t.arena.size = s.arena.size
  get? : ∀ id i, s.get? id = some i → t.get? id = some i ∨ t.get? id = some i.widen

theorem widen_widen (i : Instruction) : i.widen.widen = i.widen :=
  if_neg i.not_isShort_widen

theorem exists_target_of_fits {o : Operand} (h : o.fits .shortTarget = true) : ∃ t, o = .target t := by
  cases o with
  | target t => exact ⟨t, rfl⟩
  | immediate v => cases v <;> cases h
  | none | token | switch => cases h

theorem fits_widen {i : Instruction} (h : i.operand.fits i.kind = true) :
    i.widen.operand.fits i.widen.kind = true := by
  unfold Instruction.widen
  split
  · next hs =>
    obtain ⟨long, hlong, hkind, _⟩ := i.opcode.exists_longForm hs
    rw [hs] at h
    obtain ⟨t, ht⟩ := exists_target_of_fits h
    rw [hlong]
    show i.operand.fits long.info.operand = true
    rw [ht, hkind]
    rfl
  · exact h

theorem Widened.refl (s : InstructionStream) : Widened s s :=
  ⟨rfl, rfl, fun _ _ h => .inl h⟩

theorem Widened.trans {u : InstructionStream} (h : Widened s t) (h' : Widened t u) : Widened s u := by
  refine ⟨h'.order.trans h.order, h'.size.trans h.size, fun id i hi => ?_⟩
  rcases h.get? id i hi with ht | ht
  · exact h'.get? id i ht
  · have := h'.get? id _ ht
    rw [widen_widen, or_self] at this
    exact .inr this

theorem widened_modify (s : InstructionStream) (id : InstrId) : Widened s (s.modify id Instruction.widen) := by
  unfold modify
  split
  · next hlt =>
    refine ⟨rfl, Array.size_set hlt, fun other i hi => ?_⟩
    show (s.arena.set id.index _)[other.index]? = _ ∨ (s.arena.set id.index _)[other.index]? = _
    rw [Array.getElem?_set]
    split
    · next heq =>
      obtain ⟨_, rfl⟩ := get?_eq_some.mp hi
      simp only [heq, or_true]
    · exact .inl hi
  · exact .refl s

theorem widened_widenAll (s : InstructionStream) (ids : List InstrId) : Widened s (s.widenAll ids) := by
  induction ids generalizing s with
  | nil => exact .refl s
  | cons id ids ih => exact (widened_modify s id).trans (ih _)

theorem Widened.ids (h : Widened s t) : t.ids = s.ids :=
  congrArg Array.toList h.order

theorem Widened.wellFormed (h : Widened s t) (hs : s.WellFormed) : t.WellFormed where
  nodup := h.ids ▸ hs.nodup
  mem_ids id := by rw [h.ids, h.size, hs.mem_ids]
  fits j hj := by
    obtain ⟨k, hk, rfl⟩ := Array.mem_iff_getElem.mp hj
    have hk' : k < s.arena.size := h.size ▸ hk
    have hfit := hs.fits _ (Array.getElem_mem hk')
    rcases h.get? ⟨k⟩ _ (get?_eq_some.mpr ⟨hk', rfl⟩) with ht | ht
    · obtain ⟨_, hj⟩ := get?_eq_some.mp ht
      exact hj ▸ hfit
    · obtain ⟨_, hj⟩ := get?_eq_some.mp ht
      exact hj ▸ fits_widen hfit

theorem Widened.program_getElem? (h : Widened s t) (hs : s.WellFormed) {i : Instruction}
    (hi : s.program[k]? = some i) : t.program[k]? = some i ∨ t.program[k]? = some i.widen := by
  have hk : k < s.ids.length := hs.length_program ▸ (List.getElem?_eq_some_iff.mp hi).1
  have hid : s.ids[k]? = some s.ids[k] := List.getElem?_eq_getElem hk
  rw [hs.program_getElem? hid] at hi
  have hid' : t.ids[k]? = some s.ids[k] := by rw [h.ids, hid]
  rw [(h.wellFormed hs).program_getElem? hid']
  exact h.get? _ i hi

/-- The layout that is settled on is that of the code which was widened for it. -/
theorem settle_ok {l : Layout} (h : s.settle = .ok l t) :
    Widened s t ∧ l = Layout.ofEntries t.arena.size t.entries ∧ l.last < wordLimit := by
  fun_induction settle s with
  | case1 => cases h
  | case2 => cases h
  | case3 s entries l' hlast hmissing hfound =>
    obtain ⟨rfl, rfl⟩ := EStateM.Result.ok.inj h
    exact ⟨.refl _, rfl, Nat.not_le.mp hlast⟩
  | case4 s entries l' hlast hmissing entry others hfound ih =>
    obtain ⟨hw, hl⟩ := ih h
    exact ⟨(widened_widenAll s _).trans hw, hl⟩

end InstructionStream

end CilProbes
