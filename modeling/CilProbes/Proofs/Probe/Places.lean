import CilProbes.Proofs.Probe.Splicing

/-!
# Places in code with probes

Where the instructions of a body lie once probes are in front of them. What stood at place `k` lies at `home ps k`; its
probes begin at `enter ps k`. What lies at a place `p` belongs to the instruction of the place `origin ps p`
(`origin_eq_iff`). All three keep the order of places.
-/

namespace CilProbes.Splicing

/-- The probes in front of the instruction at a place, the first one first. -/
def ahead (ps : List Splicing) (k : Nat) : List Splicing :=
  (ps.filter isAccepted).filter (·.target = ⟨k⟩)

/-- Where the probes of the instruction at a place begin. -/
def enter (ps : List Splicing) : Nat → Nat
  | 0 => 0
  | k + 1 => enter ps k + 3 * (ahead ps k).length + 1

/-- Where the instruction at a place lies behind its probes. -/
def home (ps : List Splicing) (k : Nat) : Nat :=
  enter ps k + 3 * (ahead ps k).length

/-- The place of the instruction that lies at a place, or that the probe there is for. -/
def origin (ps : List Splicing) : Nat → Nat
  | 0 => 0
  | p + 1 => if p = home ps (origin ps p) then origin ps p + 1 else origin ps p

/-- A probe lies at the place. -/
def isProbe (ps : List Splicing) (p : Nat) : Bool :=
  p ≠ home ps (origin ps p)

/-- `enter` on handles of places. -/
def enterId (ps : List Splicing) (id : InstrId) : InstrId :=
  ⟨enter ps id.index⟩

/-- `origin` on handles of places. -/
def originId (ps : List Splicing) (id : InstrId) : InstrId :=
  ⟨origin ps id.index⟩

variable {ps : List Splicing} {j k p : Nat}

theorem enter_succ : enter ps (k + 1) = home ps k + 1 :=
  rfl

theorem enter_le_home : enter ps k ≤ home ps k :=
  Nat.le_add_right ..

theorem enter_lt_enter (h : j < k) : enter ps j < enter ps k := by
  induction k with
  | zero => exact absurd h (Nat.not_lt_zero j)
  | succ k ih =>
    have hk : enter ps k < enter ps (k + 1) := Nat.lt_succ_of_le enter_le_home
    rcases Nat.lt_succ_iff_lt_or_eq.mp h with h | rfl
    · exact Nat.lt_trans (ih h) hk
    · exact hk

theorem enter_le_enter_iff : enter ps j ≤ enter ps k ↔ j ≤ k := by
  constructor
  · intro h
    by_contra hlt
    exact Nat.not_lt.mpr h (enter_lt_enter (Nat.not_le.mp hlt))
  · intro h
    rcases Nat.lt_or_eq_of_le h with h | rfl
    · exact Nat.le_of_lt (enter_lt_enter h)
    · exact Nat.le_refl _

theorem home_lt_enter (h : j < k) : home ps j < enter ps k :=
  Nat.lt_of_lt_of_le (Nat.lt_succ_self _) (enter_le_enter_iff.mpr (Nat.succ_le_of_lt h))

/-- A place belongs to the instruction between whose entry and home it is. -/
theorem enter_origin_le_le_home (ps : List Splicing) (p : Nat) :
    enter ps (origin ps p) ≤ p ∧ p ≤ home ps (origin ps p) := by
  induction p with
  | zero => exact ⟨Nat.le_refl _, Nat.zero_le _⟩
  | succ p ih =>
    rw [origin]
    split
    · next h =>
      have hle : enter ps (origin ps p + 1) = p + 1 := by rw [enter_succ, ← h]
      exact ⟨Nat.le_of_eq hle, hle ▸ enter_le_home⟩
    · next h => exact ⟨Nat.le_succ_of_le ih.1, Nat.succ_le_of_lt (Nat.lt_of_le_of_ne ih.2 h)⟩

theorem origin_eq_iff : origin ps p = k ↔ enter ps k ≤ p ∧ p ≤ home ps k := by
  constructor
  · rintro rfl
    exact enter_origin_le_le_home ps p
  · rintro ⟨hlo, hhi⟩
    obtain ⟨hlo', hhi'⟩ := enter_origin_le_le_home ps p
    rcases Nat.lt_trichotomy (origin ps p) k with h | h | h
    · exact absurd (Nat.le_trans hlo hhi') (Nat.not_le.mpr (home_lt_enter h))
    · exact h
    · exact absurd (Nat.le_trans hlo' hhi) (Nat.not_le.mpr (home_lt_enter h))

@[simp]
theorem origin_enter : origin ps (enter ps k) = k :=
  origin_eq_iff.mpr ⟨Nat.le_refl _, enter_le_home⟩

@[simp]
theorem origin_home : origin ps (home ps k) = k :=
  origin_eq_iff.mpr ⟨enter_le_home, Nat.le_refl _⟩

theorem isProbe_home : isProbe ps (home ps k) = false := by
  simp [isProbe]

theorem eq_home_of_not_isProbe (h : isProbe ps p = false) : p = home ps (origin ps p) := by
  simpa [isProbe] using h

/-- Of an instruction with probes, the entry is not the instruction itself. -/
theorem enter_ne_home (h : ahead ps k ≠ []) (j : Nat) : enter ps j ≠ home ps k := by
  intro heq
  have hj : origin ps (enter ps j) = j := origin_enter
  have hjk : j = k := by rw [← hj, heq, origin_home]
  have hlen := List.length_pos_of_ne_nil h
  subst hjk
  unfold home at heq
  omega

theorem enter_le_iff : enter ps k ≤ p ↔ k ≤ origin ps p := by
  obtain ⟨hlo, hhi⟩ := enter_origin_le_le_home ps p
  constructor
  · intro h
    by_contra hlt
    exact Nat.not_lt.mpr (Nat.le_trans h hhi) (home_lt_enter (Nat.not_le.mp hlt))
  · intro h
    exact Nat.le_trans (enter_le_enter_iff.mpr h) hlo

theorem lt_enter_iff : p < enter ps k ↔ origin ps p < k := by
  rw [← Nat.not_le, enter_le_iff, Nat.not_le]

/-- A place in front of an instruction, counted from the entry. -/
theorem isProbe_enter_add (h : j < 3 * (ahead ps k).length) : isProbe ps (enter ps k + j) = true := by
  have horigin : origin ps (enter ps k + j) = k :=
    origin_eq_iff.mpr ⟨Nat.le_add_right .., Nat.add_le_add_left (Nat.le_of_lt h) _⟩
  unfold isProbe home
  rw [horigin]
  simp only [ne_eq, decide_eq_true_eq]
  omega

/-- Where the blocks of instructions lie that follow one another, each with the probes for one instruction. -/
theorem flatMap_range_getElem? {α : Type} {n : Nat} {block : Nat → List α}
    (hblock : ∀ k < n, (block k).length = 3 * (ahead ps k).length + 1) :
    ((List.range n).flatMap block).length = enter ps n ∧
      ∀ k < n, ∀ j < (block k).length, ((List.range n).flatMap block)[enter ps k + j]? = (block k)[j]? := by
  induction n with
  | zero => exact ⟨rfl, fun _ hk => absurd hk (Nat.not_lt_zero _)⟩
  | succ n ih =>
    obtain ⟨hlen, hget⟩ := ih fun k hk => hblock k (Nat.lt_succ_of_lt hk)
    have hn := hblock n (Nat.lt_succ_self n)
    rw [List.range_succ, List.flatMap_append, List.flatMap_singleton]
    refine ⟨by rw [List.length_append, hlen, hn, enter, Nat.add_assoc], fun k hk j hj => ?_⟩
    rcases Nat.lt_succ_iff_lt_or_eq.mp hk with hk | rfl
    · have hinside : enter ps k + j < ((List.range n).flatMap block).length := by
        have := hblock k (Nat.lt_succ_of_lt hk)
        have : home ps k < enter ps n := home_lt_enter hk
        rw [hlen]
        unfold home at this
        omega
      rw [List.getElem?_append_left hinside, hget k hk j hj]
    · rw [List.getElem?_append_right (by rw [hlen]; exact Nat.le_add_right ..), hlen, Nat.add_sub_cancel_left]

/-- The places that are left once the probes are taken out. -/
theorem filter_not_isProbe (ps : List Splicing) (n : Nat) :
    (List.range (enter ps n)).filter (fun p => !isProbe ps p) = (List.range n).map (home ps) := by
  induction n with
  | zero => rfl
  | succ n ih =>
    have hprobes : ((List.range (3 * (ahead ps n).length)).map (enter ps n + ·)).filter (fun p => !isProbe ps p) = [] := by
      refine List.filter_eq_nil_iff.mpr fun p hp => ?_
      obtain ⟨j, hj, rfl⟩ := List.mem_map.mp hp
      rw [isProbe_enter_add (List.mem_range.mp hj)]
      decide
    rw [enter_succ, List.range_succ, home, List.range_add, List.filter_append, List.filter_append, ih, hprobes,
      List.append_nil, List.range_succ, List.map_append, List.map_singleton, ← home]
    refine congrArg _ (List.filter_cons_of_pos ?_)
    rw [isProbe_home]
    rfl

end CilProbes.Splicing
