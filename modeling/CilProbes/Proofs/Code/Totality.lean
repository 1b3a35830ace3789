import CilProbes.Proofs.Code.Settled

/-!
# Which streams can be written

A well-formed stream whose targets are all in program order is written, unless it is too large (`exists_encode`):
widening makes code at most three times as large (`Widened.size_le`), and leaves no short branch out of reach
(`settle_unstrained`).
-/

namespace CilProbes

namespace Instruction

theorem operand_widen (i : Instruction) : i.widen.operand = i.operand := by
  unfold widen
  split
  · split <;> rfl
  · rfl

/-- A short branch has a target of one byte. -/
theorem size_of_isShort {i : Instruction} (hfit : i.operand.fits i.kind = true) (hs : i.IsShort) :
    i.size = i.opcode.size + 1 := by
  rw [show i.kind = .shortTarget from hs] at hfit
  obtain ⟨t, ht⟩ := InstructionStream.exists_target_of_fits hfit
  rw [Layout.size_eq, ht, show i.kind = .shortTarget from hs]
  rfl

/-- A long form has a target of four bytes. -/
theorem size_widen {i : Instruction} (hfit : i.operand.fits i.kind = true) (hs : i.IsShort) :
    i.widen.size = i.size + 3 := by
  obtain ⟨long, hlong, hkind, -⟩ := i.opcode.exists_longForm hs
  have hold := size_of_isShort hfit hs
  rw [show i.kind = .shortTarget from hs] at hfit
  obtain ⟨t, ht⟩ := InstructionStream.exists_target_of_fits hfit
  have hpage : long.size = i.opcode.size := by
    obtain ⟨code, -, hfind⟩ := Option.bind_eq_some_iff.mp hlong
    unfold Opcode.find? at hfind
    split at hfind
    · cases hfind; rfl
    · cases hfind
  have hnew : i.widen.size = long.size + 4 := by
    unfold widen
    rw [if_pos hs, hlong, Layout.size_eq]
    show long.size + Layout.operandSize long.info.operand i.operand = _
    rw [ht, hkind]
    rfl
  omega

theorem size_le_widen {i : Instruction} (hfit : i.operand.fits i.kind = true) : i.size ≤ i.widen.size := by
  by_cases hs : i.IsShort
  · rw [size_widen hfit hs]
    exact Nat.le_add_right ..
  · unfold widen
    rw [if_neg hs]

theorem size_widen_le {i : Instruction} (hfit : i.operand.fits i.kind = true) : i.widen.size ≤ 3 * i.size := by
  have hpos := Layout.size_pos i
  by_cases hs : i.IsShort
  · have hwiden := size_widen hfit hs
    have hold := size_of_isShort hfit hs
    have hopcode : 1 ≤ i.opcode.size := by
      unfold Opcode.size
      split <;> decide
    omega
  · unfold widen
    rw [if_neg hs]
    omega

end Instruction

namespace Layout

variable {l : Layout} {start : Nat} {es : List (InstrId × Instruction)}

/-- An instruction is written if its targets are placed in reach. -/
theorem instruction_of_placed {i : Instruction} (hfit : i.operand.fits i.kind = true)
    (hcount : i.targets.length < wordLimit)
    (hplaced : ∀ t ∈ i.targets, ∃ n, l.starts.get? t = some n ∧
      InReach i.kind (Int.ofNat n - Int.ofNat (start + i.size))) :
    ∃ out, l.instruction start i = .ok out := by
  have hdistances : List.Forall₂ (fun t d => l.distance (start + i.size) t = .ok d) i.targets
      (i.targets.map (l.span (start + i.size))) := by
    rw [List.forall₂_map_right_iff]
    refine List.forall₂_same.mpr fun t ht => ?_
    obtain ⟨n, hn, -⟩ := hplaced t ht
    exact distance_eq_ok.mpr ⟨n, hn, by unfold span; rw [hn]; rfl⟩
  have hreach : ∀ d ∈ i.targets.map (l.span (start + i.size)), InReach i.kind d := by
    refine List.forall_mem_map.mpr fun t ht => ?_
    obtain ⟨n, hn, hreach⟩ := hplaced t ht
    unfold span
    rw [hn]
    exact hreach
  exact ⟨_, instruction_of_distances hfit hdistances hreach (by rwa [List.length_map])⟩

/-- Every target takes at least one byte. -/
theorem length_targets_le_size (i : Instruction) : i.targets.length ≤ i.size := by
  rw [size_eq]
  unfold Instruction.targets operandSize
  cases hop : i.operand with
  | target x =>
    have hpos := size_pos i
    rwa [size_eq, hop] at hpos
  | switch xs => simp only [Operand.targets]; omega
  | none | immediate | token => exact Nat.zero_le _

/-- A target in a small layout is in reach, unless a short branch to it has to be widened. -/
theorem inReach_of_near {e : InstrId × Instruction} {t : InstrId} {n : Nat} (hfit : e.2.operand.fits e.2.kind = true)
    (ht : t ∈ e.2.targets) (hstart : l.starts.get? e.1 = some start) (hn : l.starts.get? t = some n)
    (hnear : l.strained e = false) (hfrom : start + e.2.size < 2 ^ 31) (hto : n < 2 ^ 31) :
    InReach e.2.kind (Int.ofNat n - Int.ofNat (start + e.2.size)) := by
  unfold InReach
  by_cases hshort : e.2.kind = .shortTarget
  · rw [if_pos hshort]
    rw [hshort] at hfit
    obtain ⟨x, hx⟩ := InstructionStream.exists_target_of_fits hfit
    have htx : t = x := by
      unfold Instruction.targets at ht
      rw [hx] at ht
      exact List.mem_singleton.mp ht
    rw [strained_eq hshort hx hstart (htx ▸ hn)] at hnear
    have hrange := of_decide_eq_false hnear
    omega
  · rw [if_neg hshort]
    simp only [Int.ofNat_eq_natCast]
    omega

/-- Instructions that are all written make up code. -/
theorem exists_pieces (h : ∀ k e, es[k]? = some e →
    ∃ out, l.instruction (start + ((es.take k).map fun e => e.2.size).sum) e.2 = .ok out) :
    ∃ code, l.Pieces start es code := by
  induction es generalizing start with
  | nil => exact ⟨[], .nil start⟩
  | cons e es ih =>
    obtain ⟨out, hout⟩ := h 0 e rfl
    have hrest (k : Nat) (e' : InstrId × Instruction) (he' : es[k]? = some e') :
        ∃ out, l.instruction (start + e.2.size + ((es.take k).map fun e => e.2.size).sum) e'.2 = .ok out := by
      have := h (k + 1) e' he'
      rwa [List.take_succ_cons, List.map_cons, List.sum_cons, ← Nat.add_assoc] at this
    obtain ⟨more, hmore⟩ := ih hrest
    exact ⟨out ++ more, .cons hout hmore⟩

end Layout

namespace InstructionStream

variable {s t : InstructionStream} {l : Layout} {fault : Fault}

/-! ## The size of widened code -/

theorem Widened.forall₂_program (h : Widened s t) (hs : s.WellFormed) :
    List.Forall₂ (fun i j => j = i ∨ j = i.widen) s.program t.program := by
  have hlen : s.program.length = t.program.length := by
    rw [hs.length_program, (h.wellFormed hs).length_program, h.ids]
  refine List.forall₂_iff_get.mpr ⟨hlen, fun k hk hk' => ?_⟩
  have hi : s.program[k]? = some s.program[k] := List.getElem?_eq_getElem hk
  have hj : t.program[k]? = some t.program[k] := List.getElem?_eq_getElem hk'
  rcases h.program_getElem? hs hi with h | h
  · exact .inl (Option.some_inj.mp (hj.symm.trans h))
  · exact .inr (Option.some_inj.mp (hj.symm.trans h))

/-- Number of bytes of the code as it stands. -/
def size (s : InstructionStream) : Nat :=
  (s.program.map Instruction.size).sum

theorem startAt_length (hs : s.WellFormed) : s.startAt s.ids.length = s.size := by
  unfold startAt size
  rw [← hs.length_program, List.take_length]

theorem sum_size_le {is js : List Instruction} (h : List.Forall₂ (fun i j => j = i ∨ j = i.widen) is js)
    (hfit : ∀ i ∈ is, i.operand.fits i.kind = true) :
    (js.map Instruction.size).sum ≤ 3 * (is.map Instruction.size).sum := by
  induction h with
  | nil => exact Nat.le_refl 0
  | cons hij _ ih =>
    obtain ⟨hi, hrest⟩ := List.forall_mem_cons.mp hfit
    have hle := ih hrest
    simp only [List.map_cons, List.sum_cons]
    rcases hij with rfl | rfl
    · omega
    · have := Instruction.size_widen_le hi
      omega

theorem Widened.size_le (h : Widened s t) (hs : s.WellFormed) : t.size ≤ 3 * s.size := by
  refine sum_size_le (h.forall₂_program hs) fun i hi => ?_
  obtain ⟨entry, hentry, rfl⟩ := List.mem_map.mp hi
  exact hs.fits_entries entry hentry

theorem Widened.targets_iff (h : Widened s t) (hs : s.WellFormed) {id : InstrId} :
    (∃ i ∈ s.program, id ∈ i.targets) ↔ ∃ i ∈ t.program, id ∈ i.targets := by
  have hall := (h.forall₂_program hs).imp (S := fun i j => i.targets = j.targets) fun i j hij => by
    rcases hij with rfl | rfl
    · rfl
    · exact congrArg Operand.targets i.operand_widen.symm
  constructor
  · rintro ⟨i, hi, hid⟩
    obtain ⟨j, hj, hij⟩ := exists_of_mem_right hall.flip i hi
    exact ⟨j, hj, hij ▸ hid⟩
  · rintro ⟨j, hj, hid⟩
    obtain ⟨i, hi, hij⟩ := exists_of_mem_right hall j hj
    exact ⟨i, hi, hij ▸ hid⟩

theorem Widened.inside (h : Widened s t) (hs : s.WellFormed)
    (htargets : ∀ i ∈ s.program, ∀ id ∈ i.targets, id ∈ s.ids) :
    ∀ i ∈ t.program, ∀ id ∈ i.targets, id ∈ t.ids := by
  intro i hi id hid
  obtain ⟨j, hj, hid⟩ := (h.targets_iff hs).mpr ⟨i, hi, hid⟩
  exact h.ids ▸ htargets j hj id hid

/-! ## Settling -/

/-- The code that is settled on has all targets of short branches, each in reach. -/
theorem settle_unstrained (h : s.settle = .ok l t) :
    ∀ e ∈ t.entries, l.missing? e = none ∧ l.strained e = false := by
  fun_induction settle s with
  | case1 => cases h
  | case2 => cases h
  | case3 s entries l' _ hmissing hfound =>
    obtain ⟨rfl, rfl⟩ := EStateM.Result.ok.inj h
    intro e he
    exact ⟨List.findSome?_eq_none_iff.mp hmissing e he, Bool.eq_false_iff.mpr (List.filter_eq_nil_iff.mp hfound e he)⟩
  | case4 s entries l' _ _ entry others _ ih => exact ih h

/-- Laying out fails for want of a target, or because the code is too large. -/
theorem settle_error (hs : s.WellFormed) (h : s.settle = .error fault t) :
    Widened s t ∧ (wordLimit ≤ t.layout.last ∨ ∃ e ∈ t.entries, ∃ id ∈ e.2.targets, id ∉ t.ids) := by
  fun_induction settle s with
  | case1 s entries l' hlast =>
    obtain ⟨rfl, rfl⟩ := EStateM.Result.error.inj h
    exact ⟨.refl _, .inl hlast⟩
  | case2 s entries l' hlast id hmissing =>
    obtain ⟨rfl, rfl⟩ := EStateM.Result.error.inj h
    obtain ⟨e, he, hid⟩ := List.exists_of_findSome?_eq_some hmissing
    obtain ⟨htarget, hnone⟩ := Option.filter_eq_some_iff.mp hid
    refine ⟨.refl _, .inr ⟨e, he, id, Instruction.mem_targets_of_shortTarget? htarget, fun hmem => ?_⟩⟩
    obtain ⟨k, hk⟩ := List.mem_iff_getElem?.mp hmem
    rw [show l'.starts.get? id = _ from hs.starts_ofEntries hk] at hnone
    cases hnone
  | case3 => cases h
  | case4 s entries l' _ _ entry others _ ih =>
    have hw := widened_widenAll s (entry.1 :: others.map Prod.fst)
    obtain ⟨hw', hcause⟩ := ih (hw.wellFormed hs) h
    exact ⟨hw.trans hw', hcause⟩

/-! ## Writing -/

theorem startAt_le_startAt {j k : Nat} (hjk : j ≤ k) (hk : k ≤ s.program.length) : s.startAt j ≤ s.startAt k := by
  rcases Nat.lt_or_eq_of_le hjk with hlt | rfl
  · exact Nat.le_of_lt (startAt_lt_startAt hlt hk)
  · exact Nat.le_refl _

theorem startAt_le_size (hs : s.WellFormed) {k : Nat} (hk : k ≤ s.ids.length) : s.startAt k ≤ s.size := by
  rw [← startAt_length hs]
  exact startAt_le_startAt hk (Nat.le_of_eq hs.length_program.symm)

theorem last_le_size (s : InstructionStream) : s.layout.last ≤ s.size := by
  unfold layout size program
  rw [List.map_map]
  rcases List.eq_nil_or_concat s.entries with hnil | ⟨front, entry, hentries⟩
  · rw [hnil]
    exact Nat.le_refl 0
  · rw [hentries, List.concat_eq_append, Layout.ofEntries, Layout.last_foldl_place_concat, List.map_append,
      List.sum_append, Nat.zero_add]
    exact Nat.le_add_right ..

/--
A stream is written where it stands if its targets are there, none too far for its branch, and the code is not too
large.
-/
theorem exists_pieces (ht : t.WellFormed) (hsize : t.size < 2 ^ 31)
    (hplaced : ∀ i ∈ t.program, ∀ id ∈ i.targets, id ∈ t.ids) (hnear : ∀ e ∈ t.entries, t.layout.strained e = false) :
    ∃ code, t.layout.Pieces 0 t.entries code := by
  refine Layout.exists_pieces fun k e he => ?_
  have hentry := List.mem_of_getElem? he
  have hid : t.ids[k]? = some e.1 := by rw [← ht.map_fst_entries, List.getElem?_map, he]; rfl
  have hprogram : t.program[k]? = some e.2 := by rw [program, List.getElem?_map, he]; rfl
  have hk : k < t.ids.length := (List.getElem?_eq_some_iff.mp hid).1
  have hfit := ht.fits_entries e hentry
  have hend : t.startAt k + e.2.size ≤ t.size := startAt_succ hprogram ▸ startAt_le_size ht hk
  rw [Nat.zero_add, ← startAt_eq]
  refine Layout.instruction_of_placed hfit ?_ fun id hid' => ?_
  · have hcount := Layout.length_targets_le_size e.2
    exact Nat.lt_trans (Nat.lt_of_le_of_lt (Nat.le_trans hcount (Nat.le_trans (Nat.le_add_left ..) hend)) hsize)
      (by decide)
  · have hmem := hplaced e.2 (List.mem_of_getElem? hprogram) id hid'
    obtain ⟨m, hm⟩ := List.mem_iff_getElem?.mp hmem
    have hstart := ht.starts_layout hm
    have hle : t.startAt m ≤ t.size := startAt_le_size ht (Nat.le_of_lt (List.getElem?_eq_some_iff.mp hm).1)
    refine ⟨t.startAt m, hstart, ?_⟩
    exact Layout.inReach_of_near hfit hid' (ht.starts_layout hid) hstart (hnear e hentry) (by omega) (by omega)

/-- A well-formed stream that is not too large and refers to its own instructions is written. -/
theorem exists_encode (hs : s.WellFormed) (hsize : s.size < 2 ^ 29)
    (htargets : ∀ i ∈ s.program, ∀ id ∈ i.targets, id ∈ s.ids) : ∃ e t, s.encode = .ok e t := by
  have hbound {t : InstructionStream} (hw : Widened s t) : t.size < 2 ^ 31 := by
    have := hw.size_le hs
    omega
  cases hsettle : s.settle with
  | error fault t =>
    obtain ⟨hw, hlast | ⟨e, he, id, hid, hout⟩⟩ := settle_error hs hsettle
    · have hle := Nat.le_trans hlast t.last_le_size
      exact absurd (Nat.lt_of_le_of_lt hle (hbound hw)) (by decide)
    · exact absurd (hw.inside hs htargets e.2 (List.mem_map_of_mem he) id hid) hout
  | ok l t =>
    obtain ⟨hw, rfl, -⟩ := settle_ok hsettle
    have ht := hw.wellFormed hs
    obtain ⟨code, hpieces⟩ := exists_pieces ht (hbound hw) (hw.inside hs htargets) fun e he =>
      (settle_unstrained hsettle e he).2
    have hcode : t.layout.codeOnto t.entries #[] = .ok (#[] ++ code) :=
      Layout.codeOnto_of_pieces hpieces ht.fits_entries rfl
    unfold layout at hcode
    unfold InstructionStream.encode
    rw [hsettle]
    dsimp only
    rw [hcode]
    exact ⟨_, t, rfl⟩

end InstructionStream

end CilProbes
