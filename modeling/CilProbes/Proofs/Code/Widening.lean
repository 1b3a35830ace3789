import CilProbes.Proofs.Code.Totality

/-!
# Which branches are widened

Laying code out is a loop: one pass widens all branches that are strained in the layout of the code as it stands
(`relax`), and the loop ends when there are none (`settle_eq`), at the latest when no short branch is left
(`settleWithin_eq`). Widening moves no two instructions closer to each other (`Widened.startAt_mono`), so a branch that
is strained once is so in all code that is widened further. Any choice of long branches with which the code fits thus has
all those that a pass widens (`widened_relax`), and by induction all those that the loop widens (`widened_of_settle`):
the code that is written has the fewest long branches (`exists_settled`).
-/

namespace CilProbes.InstructionStream

variable {s t u : InstructionStream} {l : Layout} {e : EncodedCode} {id : InstrId} {i : Instruction} {j k : Nat}

/-! ## Passes -/

/-- The short branches whose targets are out of reach in the layout of the code as it stands. -/
def strainedIds (s : InstructionStream) : List InstrId :=
  (s.entries.filter s.layout.strained).map Prod.fst

/-- What one pass makes of the code. -/
def relax (s : InstructionStream) : InstructionStream :=
  s.widenAll s.strainedIds

/-- One pass, and the passes after it. -/
theorem settle_eq (s : InstructionStream) :
    s.settle =
      if wordLimit ≤ s.layout.last then .error (.malformed .codeTooLarge) s
      else
        match s.entries.findSome? s.layout.missing? with
        | some t => .error (.malformed (.branchTarget t)) s
        | none => if s.strainedIds = [] then .ok s.layout s else s.relax.settle := by
  fun_cases settle s with
  | case1 entries l hlast => exact (if_pos hlast).symm
  | case2 entries l hlast target hmissing =>
    have hmissing : s.entries.findSome? s.layout.missing? = some target := hmissing
    rw [if_neg (show ¬ wordLimit ≤ s.layout.last from hlast), hmissing]
  | case3 entries l hlast hmissing hfound =>
    have hmissing : s.entries.findSome? s.layout.missing? = none := hmissing
    have hstrained : s.strainedIds = [] := congrArg (List.map Prod.fst) hfound
    rw [if_neg (show ¬ wordLimit ≤ s.layout.last from hlast), hmissing]
    exact (if_pos hstrained).symm
  | case4 entries l hlast hmissing entry others hfound =>
    have hmissing : s.entries.findSome? s.layout.missing? = none := hmissing
    have hstrained : s.strainedIds = entry.1 :: others.map Prod.fst := congrArg (List.map Prod.fst) hfound
    rw [if_neg (show ¬ wordLimit ≤ s.layout.last from hlast), hmissing]
    dsimp only
    rw [if_neg (hstrained ▸ List.cons_ne_nil _ _), relax, hstrained]

theorem mem_strainedIds : id ∈ s.strainedIds ↔ ∃ i, (id, i) ∈ s.entries ∧ s.layout.strained (id, i) = true := by
  unfold strainedIds
  rw [List.mem_map]
  constructor
  · rintro ⟨⟨_, i⟩, hentry, rfl⟩
    exact ⟨i, List.mem_filter.mp hentry⟩
  · rintro ⟨i, hentry⟩
    exact ⟨(id, i), List.mem_filter.mpr hentry, rfl⟩

/-- A pass that widens something leaves fewer short branches. -/
theorem shortCount_relax_lt (h : s.strainedIds ≠ []) : s.relax.shortCount < s.shortCount := by
  obtain ⟨id, ids, hids⟩ := List.exists_cons_of_ne_nil h
  obtain ⟨i, hentry, hstrained⟩ := mem_strainedIds.mp (hids ▸ List.mem_cons_self : id ∈ s.strainedIds)
  unfold relax
  rw [hids]
  exact shortCount_widenAll_lt ids (get?_of_mem_entries hentry) (isShort_of_strained hstrained)

/-- Lays the code out in so many passes at most, or else not at all. -/
def settleWithin : (passes : Nat) → InstructionStream → Option (EStateM.Result Fault InstructionStream Layout)
  | 0, _ => none
  | passes + 1, s =>
    if wordLimit ≤ s.layout.last then some (.error (.malformed .codeTooLarge) s)
    else
      match s.entries.findSome? s.layout.missing? with
      | some t => some (.error (.malformed (.branchTarget t)) s)
      | none => if s.strainedIds = [] then some (.ok s.layout s) else settleWithin passes s.relax

/-- One pass more than there are short branches is enough. -/
theorem settleWithin_eq {passes : Nat} (h : s.shortCount < passes) : settleWithin passes s = some s.settle := by
  induction passes generalizing s with
  | zero => exact absurd h (Nat.not_lt_zero _)
  | succ passes ih =>
    rw [settleWithin, settle_eq]
    split
    · rfl
    · split
      · rfl
      · split
        · rfl
        · next hstrained => exact ih (Nat.lt_of_lt_of_le (shortCount_relax_lt hstrained) (Nat.le_of_lt_succ h))

/-! ## What a pass changes -/

theorem get?_modify (s : InstructionStream) (id other : InstrId) (f : Instruction → Instruction) :
    (s.modify id f).get? other = if other = id then (s.get? other).map f else s.get? other := by
  unfold modify get?
  split
  · next hlt =>
    show (s.arena.set id.index _)[other.index]? = _
    rw [Array.getElem?_set]
    by_cases heq : other = id
    · subst heq
      rw [if_pos rfl, if_pos rfl, Array.getElem?_eq_getElem hlt]
      rfl
    · rw [if_neg heq, if_neg fun hindex => heq (congrArg InstrId.mk hindex.symm)]
  · next hge =>
    split
    · next heq =>
      rw [heq, Array.getElem?_eq_none (Nat.not_lt.mp hge)]
      rfl
    · rfl

theorem get?_widenAll (s : InstructionStream) (ids : List InstrId) (id : InstrId) :
    (s.widenAll ids).get? id = if id ∈ ids then (s.get? id).map Instruction.widen else s.get? id := by
  induction ids generalizing s with
  | nil => rfl
  | cons first ids ih =>
    show ((s.modify first Instruction.widen).widenAll ids).get? id = _
    rw [ih, get?_modify]
    -- What is named twice is widened once.
    by_cases hfirst : id = first <;> by_cases hids : id ∈ ids <;>
      simp [hfirst, hids, Option.map_map, Function.comp_def, widen_widen]

/-! ## Distances -/

/-- The distance that a branch at `id` covers to reach `target`. -/
def displacement (s : InstructionStream) (id target : InstrId) : Int :=
  Int.ofNat (s.startAt (s.ids.idxOf target)) - Int.ofNat (s.startAt (s.ids.idxOf id + 1))

/-- Every short branch reaches its target. -/
def Fits (s : InstructionStream) : Prop :=
  ∀ id ∈ s.ids, ∀ i target, s.get? id = some i → i.shortTarget? = some target →
    -128 ≤ s.displacement id target ∧ s.displacement id target ≤ 127

theorem displacement_eq (hs : s.WellFormed) (hid : id ∈ s.ids) (hi : s.get? id = some i) (target : InstrId) :
    s.displacement id target =
      Int.ofNat (s.startAt (s.ids.idxOf target)) - Int.ofNat (s.startAt (s.ids.idxOf id) + i.size) := by
  have hprogram := hs.program_getElem? (List.getElem?_idxOf hid)
  rw [hi] at hprogram
  unfold displacement
  rw [startAt_succ hprogram]

/-- A branch is strained if it is short and its distance is not that of a short branch. -/
theorem strained_iff (hs : s.WellFormed) (hid : id ∈ s.ids) (hi : s.get? id = some i) :
    s.layout.strained (id, i) = true ↔ ∃ target ∈ s.ids, i.shortTarget? = some target ∧
      (s.displacement id target < -128 ∨ 127 < s.displacement id target) := by
  have hstart : s.layout.starts.get? id = some (s.startAt (s.ids.idxOf id)) :=
    hs.starts_layout (List.getElem?_idxOf hid)
  unfold Layout.strained
  cases hshort : i.shortTarget? with
  | none => simp
  | some target =>
    by_cases htarget : target ∈ s.ids
    · have hend : s.layout.starts.get? target = some (s.startAt (s.ids.idxOf target)) :=
        hs.starts_layout (List.getElem?_idxOf htarget)
      simp [Layout.distance?, hstart, hend, htarget, displacement_eq hs hid hi]
    · have hend : s.layout.starts.get? target = none := hs.starts_ofEntries_of_notMem htarget
      simp [Layout.distance?, hend, htarget]

/-- What lies between two places does not shrink. -/
theorem Widened.startAt_mono (h : Widened s u) (hs : s.WellFormed) (hjk : j ≤ k) (hk : k ≤ s.ids.length) :
    s.startAt k + u.startAt j ≤ s.startAt j + u.startAt k := by
  induction k, hjk using Nat.le_induction with
  | base => exact Nat.le_refl _
  | succ k _ ih =>
    have hle := ih (Nat.le_of_succ_le hk)
    have hlt : k < s.program.length := hs.length_program ▸ hk
    have hi : s.program[k]? = some s.program[k] := List.getElem?_eq_getElem hlt
    have hfit : s.program[k].operand.fits s.program[k].kind = true := by
      obtain ⟨entry, hentry, hprogram⟩ := List.mem_map.mp (List.getElem_mem hlt)
      exact hprogram ▸ hs.fits_entries entry hentry
    rw [startAt_succ hi]
    rcases h.program_getElem? hs hi with hu | hu
    · rw [startAt_succ hu]
      omega
    · have hwiden := Instruction.size_le_widen hfit
      rw [startAt_succ hu]
      omega

/-- No target comes closer: a distance that is too large for a short branch stays so. -/
theorem Widened.far_of_far (h : Widened s u) (hs : s.WellFormed) (hid : id ∈ s.ids) {target : InstrId}
    (htarget : target ∈ s.ids) (hfar : s.displacement id target < -128 ∨ 127 < s.displacement id target) :
    u.displacement id target < -128 ∨ 127 < u.displacement id target := by
  have hfrom : s.ids.idxOf id + 1 ≤ s.ids.length := List.idxOf_lt_length_iff.mpr hid
  have hto : s.ids.idxOf target ≤ s.ids.length := Nat.le_of_lt (List.idxOf_lt_length_iff.mpr htarget)
  unfold displacement at hfar ⊢
  rw [h.ids]
  simp only [Int.ofNat_eq_natCast] at hfar ⊢
  -- A target in front of the branch and one behind it move away in opposite directions.
  rcases Nat.le_total (s.ids.idxOf target) (s.ids.idxOf id + 1) with hle | hle
  · have hmono := h.startAt_mono hs hle hfrom
    have hback := startAt_le_startAt hle (hs.length_program ▸ hfrom)
    omega
  · have hmono := h.startAt_mono hs hle hto
    have hfront := startAt_le_startAt hle (hs.length_program ▸ hto)
    omega

/-! ## The fewest long branches -/

/-- With which long branches soever the code fits, those that one pass widens are among them. -/
theorem widened_relax (hs : s.WellFormed) (h : Widened s u) (hu : u.Fits) : Widened s.relax u := by
  have hrelax : Widened s s.relax := widened_widenAll s _
  refine ⟨h.order.trans hrelax.order.symm, h.size.trans hrelax.size.symm, fun id j hj => ?_⟩
  unfold relax at hj
  rw [get?_widenAll] at hj
  split at hj
  · next hid =>
    obtain ⟨i, hentry, hstrained⟩ := mem_strainedIds.mp hid
    obtain ⟨hid, hi⟩ : id ∈ s.ids ∧ s.get? id = some i := mem_entries.mp hentry
    rw [hi] at hj
    cases hj
    obtain ⟨target, htarget, hshort, hfar⟩ := (strained_iff hs hid hi).mp hstrained
    refine (h.get? id i hi).elim (fun hi' => ?_) .inl
    -- It would not reach its target if it were short.
    have hreach := hu id (h.ids ▸ hid) i target hi' hshort
    have hfar := h.far_of_far hs hid htarget hfar
    omega
  · exact h.get? id j hj

/-- With which long branches soever the code fits, those that the loop widens are among them. -/
theorem widened_of_settle (hs : s.WellFormed) (hsettle : s.settle = .ok l t) (h : Widened s u) (hu : u.Fits) :
    Widened t u := by
  induction hcount : s.shortCount using Nat.strongRecOn generalizing s with
  | ind n ih =>
    rw [settle_eq] at hsettle
    split at hsettle
    · cases hsettle
    · split at hsettle
      · cases hsettle
      · split at hsettle
        · cases hsettle
          exact h
        · next hstrained =>
          exact ih _ (hcount ▸ shortCount_relax_lt hstrained) ((widened_widenAll s _).wellFormed hs) hsettle
            (widened_relax hs h hu) rfl

theorem settle_of_encode (h : s.encode = .ok e t) : s.settle = .ok t.layout t := by
  unfold encode at h
  cases hsettle : s.settle with
  | error fault s' => rw [hsettle] at h; cases h
  | ok l s' =>
    rw [hsettle] at h
    obtain ⟨-, rfl, -⟩ := settle_ok hsettle
    dsimp only at h
    split at h
    · cases h
      rfl
    · cases h

/-- What is settled on fits. -/
theorem fits_of_settle (hs : s.WellFormed) (hsettle : s.settle = .ok l t)
    (htargets : ∀ i ∈ t.program, ∀ id ∈ i.targets, id ∈ t.ids) : t.Fits := by
  obtain ⟨hw, rfl, -⟩ := settle_ok hsettle
  have ht := hw.wellFormed hs
  intro id hid i target hi hshort
  have hentry : (id, i) ∈ t.entries := mem_entries.mpr ⟨hid, hi⟩
  have htarget := htargets i (List.mem_map_of_mem hentry) target (Instruction.mem_targets_of_shortTarget? hshort)
  have hnear := Bool.eq_false_iff.mp (settle_unstrained hsettle (id, i) hentry).2
  have hreach := mt (strained_iff ht hid hi).mpr hnear
  by_contra hfar
  exact hreach ⟨target, htarget, hshort, by omega⟩

theorem Widened.get?_eq_of_ne (h : Widened s t) (h' : Widened t u) (hne : t.get? id ≠ s.get? id) :
    u.get? id = t.get? id := by
  cases hi : s.get? id with
  | none =>
    have hnone : t.get? id = none := by
      unfold InstructionStream.get? at hi ⊢
      rw [Array.getElem?_eq_none_iff] at hi ⊢
      rwa [h.size]
    exact absurd (hnone.trans hi.symm) hne
  | some i =>
    rcases h.get? id i hi with ht | ht
    · exact absurd (ht.trans hi.symm) hne
    · rw [ht]
      have hu := h'.get? id _ ht
      rwa [widen_widen, or_self] at hu

/-- What writing makes of a stream: the same code with the fewest long branches with which it fits. -/
structure Settled (s t : InstructionStream) : Prop where
  order : t.order = s.order
  size : t.arena.size = s.arena.size
  instructions : ∀ id i, s.get? id = some i → t.get? id = some i ∨
    i.IsShort ∧ ∃ long, i.opcode.longForm? = some long ∧ t.get? id = some { i with opcode := long }
  fits : t.Fits
  least : ∀ u, Widened s u → u.Fits → ∀ id, t.get? id ≠ s.get? id → u.get? id = t.get? id

theorem settled_of_settle (hs : s.WellFormed) (hsettle : s.settle = .ok l t)
    (htargets : ∀ i ∈ t.program, ∀ id ∈ i.targets, id ∈ t.ids) : Settled s t := by
  obtain ⟨hw, -, -⟩ := settle_ok hsettle
  refine ⟨hw.order, hw.size, fun id i hi => ?_, fits_of_settle hs hsettle htargets, fun u hu hfits id hne => ?_⟩
  · rcases hw.get? id i hi with ht | ht
    · exact .inl ht
    · by_cases hshort : i.IsShort
      · obtain ⟨long, hlong, -⟩ := i.opcode.exists_longForm hshort
        refine .inr ⟨hshort, long, hlong, ?_⟩
        rw [ht, Instruction.widen, if_pos hshort, hlong]
      · rw [Instruction.widen, if_neg hshort] at ht
        exact .inl ht
  · exact hw.get?_eq_of_ne (widened_of_settle hs hsettle hu hfits) hne

/--
A well-formed stream of less than 2^29 bytes with targets of its own is written, after at most one pass more than it has
short branches. Only as many branches become long as have to, and writing the stream again changes nothing.
-/
theorem exists_settled (hs : s.WellFormed) (hsize : s.size < 2 ^ 29)
    (htargets : ∀ i ∈ s.program, ∀ id ∈ i.targets, id ∈ s.ids) :
    ∃ e t, s.encode = .ok e t ∧ settleWithin (s.shortCount + 1) s = some (.ok t.layout t) ∧ Settled s t ∧
      (∀ id ∈ t.ids, e.starts.get? id = some (t.startAt (t.ids.idxOf id))) ∧ t.encode = .ok e t := by
  obtain ⟨e, t, hencode⟩ := exists_encode hs hsize htargets
  obtain ⟨hw, he⟩ := encode_ok hs hencode
  have ht := hw.wellFormed hs
  have hsettle := settle_of_encode hencode
  refine ⟨e, t, hencode, ?_, settled_of_settle hs hsettle (hw.inside hs htargets), fun id hid => ?_, he.encode ht⟩
  · rw [settleWithin_eq (Nat.lt_succ_self _), hsettle]
  · exact (he.starts_eq_some ht).mpr ⟨hid, rfl⟩

/-- A branch is out of reach and becomes long; now the branch in front of it is out of reach and becomes long, too. -/
theorem exists_settled_cascade : ∃ s e t, WellFormed s ∧ s.size < 2 ^ 29 ∧
    (∀ i ∈ s.program, ∀ id ∈ i.targets, id ∈ s.ids) ∧ s.strainedIds = [⟨1⟩] ∧ s.shortCount = 2 ∧
    s.encode = .ok e t ∧ Settled s t ∧ t.shortCount = 0 := by
  obtain ⟨first, hfirst, second, hsecond, table, htable, const, hconst, ret, hret, hfits, hsize, htargets, hstrained,
      hcount, e, t, hencode, hlong⟩ :
      ∃ first, Instruction.make 0 0x2B (.target ⟨3⟩) = .ok first ∧
      ∃ second, Instruction.make 0 0x2B (.target ⟨4⟩) = .ok second ∧
      ∃ table, Instruction.make 0 0x45 (.switch (List.replicate 30 ⟨0⟩)) = .ok table ∧
      ∃ const, Instruction.make 0 0x20 (.immediate (.int32 7)) = .ok const ∧
      ∃ ret, Instruction.make 0 0x2A .none = .ok ret ∧
      (∀ i ∈ #[first, second, table, const, ret], i.operand.fits i.kind = true) ∧
      (ofArray #[first, second, table, const, ret]).size < 2 ^ 29 ∧
      (∀ i ∈ (ofArray #[first, second, table, const, ret]).program, ∀ id ∈ i.targets,
        id ∈ (ofArray #[first, second, table, const, ret]).ids) ∧
      (ofArray #[first, second, table, const, ret]).strainedIds = [⟨1⟩] ∧
      (ofArray #[first, second, table, const, ret]).shortCount = 2 ∧
      ∃ e t, encode.run (ofArray #[first, second, table, const, ret]) = .ok e t ∧ t.shortCount = 0 := by
    decide +kernel
  have hs : (ofArray #[first, second, table, const, ret]).WellFormed := wellFormed_ofArray hfits
  obtain ⟨e', t', hencode', -, hsettled, -⟩ := exists_settled hs hsize htargets
  cases hencode.symm.trans hencode'
  exact ⟨_, e, t, hs, hsize, htargets, hstrained, hcount, hencode, hsettled, hlong⟩

end CilProbes.InstructionStream
