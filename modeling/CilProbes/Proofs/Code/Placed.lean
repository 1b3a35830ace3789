import CilProbes.Proofs.Code.Widening

/-!
# Handles do not matter

A stream with the places of its instructions for their handles (`placed`) is written as the stream is: in the same
bytes and with the same offsets, or it fails with the same fault (`encode_placed`). Its layout is the same at the places
of the instructions (`starts_placed`), so each pass widens the same branches (`relax_placed`), and by induction so does
the loop (`settle_placed`). So streams with the same program are written alike, whatever the history of their handles.
-/

namespace CilProbes

namespace Instruction

variable {f : InstrId → InstrId} {i : Instruction}

theorem opcode_mapTargets (f : InstrId → InstrId) (i : Instruction) : (i.mapTargets f).opcode = i.opcode := by
  rw [mapTargets_eq]

theorem size_mapTargets (f : InstrId → InstrId) (i : Instruction) : (i.mapTargets f).size = i.size := by
  obtain ⟨opcode, operand, offset⟩ := i
  cases operand with
  | switch ts => simp [mapTargets_eq, size, Operand.mapTargets]
  | none | immediate | token | target => rfl

theorem shortTarget?_mapTargets (f : InstrId → InstrId) (i : Instruction) :
    (i.mapTargets f).shortTarget? = i.shortTarget?.map f := by
  have hshort : (i.mapTargets f).IsShort ↔ i.IsShort := by
    unfold IsShort kind
    rw [opcode_mapTargets]
  unfold shortTarget?
  simp only [hshort]
  split
  · rw [mapTargets_eq]
    cases i.operand <;> rfl
  · rfl

theorem widen_eq (i : Instruction) : i.widen =
    { i with
      opcode := if i.opcode.info.operand = .shortTarget then i.opcode.longForm?.getD i.opcode else i.opcode } := by
  by_cases hshort : i.IsShort
  · rw [widen, if_pos hshort, if_pos (show i.opcode.info.operand = _ from hshort)]
    cases i.opcode.longForm? <;> rfl
  · rw [widen, if_neg hshort, if_neg (show ¬ i.opcode.info.operand = _ from hshort)]

/-- Branches are widened wherever they lead to. -/
theorem widen_mapTargets (f : InstrId → InstrId) (i : Instruction) :
    (i.mapTargets f).widen = i.widen.mapTargets f := by
  rw [widen_eq, widen_eq, mapTargets_eq, mapTargets_eq]

end Instruction

namespace Layout

variable {l l' : Layout} {f : InstrId → InstrId} {next start : Nat} {i : Instruction}

theorem wide_of_distance {cause : Int → Malformation} {t t' : InstrId} (h : l'.distance next t' = l.distance next t) :
    l'.wide cause next t' = l.wide cause next t := by
  unfold wide
  rw [h]

/-- The bytes of an instruction depend on the distances to its targets, not on what the targets are called. -/
theorem instruction_mapTargets
    (h : ∀ t ∈ i.targets, l'.distance (start + i.size) (f t) = l.distance (start + i.size) t) :
    l'.instruction start (i.mapTargets f) = l.instruction start i := by
  have hoperand : l'.operand (start + i.size) i.kind (i.operand.mapTargets f) =
      l.operand (start + i.size) i.kind i.operand := by
    unfold Instruction.targets at h
    cases hop : i.operand with
    | none | immediate | token => rfl
    | target t =>
      have ht := h t (by rw [hop]; exact List.mem_singleton_self t)
      unfold operand
      dsimp only [Operand.mapTargets]
      rw [ht, wide_of_distance ht]
    | switch ts =>
      have hts : (ts.map f).mapM (l'.wide .switchDisplacement (start + i.size)) =
          ts.mapM (l.wide .switchDisplacement (start + i.size)) :=
        mapM_map_congr fun t ht => wide_of_distance (h t (by rw [hop]; exact ht))
      unfold operand
      dsimp only [Operand.mapTargets]
      rw [hts, List.length_map]
  unfold instruction
  rw [Instruction.size_mapTargets, Instruction.mapTargets_eq]
  exact congrArg (· >>= _) hoperand

theorem codeOnto_map {g : InstrId × Instruction → InstrId × Instruction} {es : List (InstrId × Instruction)}
    (h : ∀ e ∈ es, ∀ start, l'.instruction start (g e).2 = l.instruction start e.2) (done : Array UInt8) :
    l'.codeOnto (es.map g) done = l.codeOnto es done := by
  induction es generalizing done with
  | nil => rfl
  | cons e es ih =>
    obtain ⟨he, hes⟩ := List.forall_mem_cons.mp h
    rw [List.map_cons, codeOnto, codeOnto, he]
    cases l.instruction done.size e.2 with
    | error fault => rfl
    | ok out => exact ih hes (done ++ out)

end Layout

namespace InstructionStream

variable {s t : InstructionStream} {id : InstrId} {i : Instruction} {k : Nat}

/-- The same program with places for handles. -/
def placed (s : InstructionStream) : InstructionStream :=
  ofArray (s.program.map (Instruction.mapTargets s.place)).toArray

theorem wellFormed_placed (hs : s.WellFormed) : s.placed.WellFormed := by
  refine wellFormed_ofArray fun i hi => ?_
  obtain ⟨j, hj, rfl⟩ := List.mem_map.mp (List.mem_toArray.mp hi)
  obtain ⟨entry, hentry, rfl⟩ := List.mem_map.mp hj
  rw [Instruction.mapTargets_eq]
  exact (Operand.fits_mapTargets ..).trans (hs.fits_entries entry hentry)

theorem program_placed (hs : s.WellFormed) : s.placed.program = s.program.map (Instruction.mapTargets s.place) :=
  program_ofArray (wellFormed_placed hs).fits

theorem ids_placed (hs : s.WellFormed) : s.placed.ids = s.ids.map s.place := by
  unfold placed
  rw [ids_ofArray, List.size_toArray, List.length_map, hs.length_program]
  refine List.ext_getElem (by simp) fun k hk hk' => ?_
  rw [List.length_map] at hk'
  rw [List.getElem_map, List.getElem_map, List.getElem_range, hs.place_eq (List.getElem?_eq_getElem hk')]

/-- The entries are the handles with their instructions. -/
theorem zip_ids_program (hs : s.WellFormed) : s.ids.zip s.program = s.entries := by
  rw [← hs.map_fst_entries, program, List.zip_map']
  exact List.map_id _

theorem entries_placed (hs : s.WellFormed) :
    s.placed.entries = s.entries.map fun e => (s.place e.1, e.2.mapTargets s.place) := by
  rw [← zip_ids_program (wellFormed_placed hs), ids_placed hs, program_placed hs, List.zip_map, zip_ids_program hs]
  rfl

/-- Two streams with the same order are the same if they have the same entries. -/
theorem eq_of_entries (hs : s.WellFormed) (ht : t.WellFormed) (horder : s.order = t.order)
    (hentries : s.entries = t.entries) : s = t := by
  have hids : s.ids = t.ids := congrArg Array.toList horder
  have harena : s.arena = t.arena := by
    refine Array.ext_getElem? fun k => ?_
    show s.get? ⟨k⟩ = t.get? ⟨k⟩
    by_cases hk : (⟨k⟩ : InstrId) ∈ s.ids
    · obtain ⟨i, hi⟩ := hs.exists_get? hk
      have hentry : ((⟨k⟩ : InstrId), i) ∈ t.entries := hentries ▸ mem_entries.mpr ⟨hk, hi⟩
      rw [hi]
      exact (mem_entries.mp hentry).2.symm
    · have hs' := Nat.not_lt.mp (mt (hs.mem_ids ⟨k⟩).mpr hk)
      have ht' := Nat.not_lt.mp (mt (ht.mem_ids ⟨k⟩).mpr (hids ▸ hk))
      exact (Array.getElem?_eq_none hs').trans (Array.getElem?_eq_none ht').symm
  obtain ⟨arena, order⟩ := s
  obtain ⟨arena', order'⟩ := t
  exact congrArg₂ mk harena horder

/-! ## Layouts -/

theorem startAt_placed (hs : s.WellFormed) (k : Nat) : s.placed.startAt k = s.startAt k := by
  unfold startAt
  rw [program_placed hs, ← List.map_take, List.map_map]
  exact congrArg List.sum (List.map_congr_left fun i _ => i.size_mapTargets s.place)

theorem starts_placed (hs : s.WellFormed) (hid : id ∈ s.ids) :
    s.placed.layout.starts.get? (s.place id) = s.layout.starts.get? id := by
  have hk := List.getElem?_idxOf hid
  have hk' : s.placed.ids[s.ids.idxOf id]? = some (s.place id) := by
    rw [ids_placed hs, List.getElem?_map, hk]
    rfl
  rw [hs.starts_layout hk, (wellFormed_placed hs).starts_layout hk', startAt_placed hs]

theorem last_placed (hs : s.WellFormed) : s.placed.layout.last = s.layout.last := by
  unfold layout
  rw [entries_placed hs]
  rcases List.eq_nil_or_concat s.entries with hnil | ⟨front, entry, hentries⟩
  · rw [hnil]
    rfl
  · rw [hentries, List.concat_eq_append, List.map_append, List.map_singleton, Layout.ofEntries, Layout.ofEntries,
      Layout.last_foldl_place_concat, Layout.last_foldl_place_concat, List.map_map]
    refine congrArg (fun sizes => 0 + List.sum sizes) (List.map_congr_left fun e _ => ?_)
    exact e.2.size_mapTargets s.place

theorem distance?_placed (hs : s.WellFormed) (next : Nat) (hid : id ∈ s.ids) :
    s.placed.layout.distance? next (s.place id) = s.layout.distance? next id := by
  unfold Layout.distance?
  rw [starts_placed hs hid]

theorem strained_placed (hs : s.WellFormed) (hid : id ∈ s.ids) (htargets : ∀ x ∈ i.targets, x ∈ s.ids) :
    s.placed.layout.strained (s.place id, i.mapTargets s.place) = s.layout.strained (id, i) := by
  unfold Layout.strained
  dsimp only
  rw [Instruction.shortTarget?_mapTargets, Instruction.size_mapTargets, starts_placed hs hid]
  cases htarget : i.shortTarget? with
  | none => rfl
  | some target =>
    rw [Option.map_some]
    dsimp only
    rw [distance?_placed hs _ (htargets target (Instruction.mem_targets_of_shortTarget? htarget))]

/-- No target is missing. -/
theorem findSome?_missing? (hs : s.WellFormed) (hinside : ∀ i ∈ s.program, ∀ id ∈ i.targets, id ∈ s.ids) :
    s.entries.findSome? s.layout.missing? = none := by
  rw [List.findSome?_eq_none_iff]
  intro entry hentry
  unfold Layout.missing?
  rw [Option.filter_eq_none_iff]
  intro target htarget
  have hmem := hinside entry.2 (List.mem_map_of_mem hentry) target (Instruction.mem_targets_of_shortTarget? htarget)
  rw [hs.starts_layout (List.getElem?_idxOf hmem)]
  exact Bool.false_ne_true

theorem inside_placed (hs : s.WellFormed) (hinside : ∀ i ∈ s.program, ∀ id ∈ i.targets, id ∈ s.ids) :
    ∀ i ∈ s.placed.program, ∀ id ∈ i.targets, id ∈ s.placed.ids := by
  rw [program_placed hs, ids_placed hs]
  refine List.forall_mem_map.mpr fun i hi id hid => ?_
  rw [Instruction.targets_mapTargets] at hid
  obtain ⟨old, hold, rfl⟩ := List.mem_map.mp hid
  exact List.mem_map_of_mem (hinside i hi old hold)

/-! ## Passes -/

theorem strainedIds_placed (hs : s.WellFormed) (hinside : ∀ i ∈ s.program, ∀ id ∈ i.targets, id ∈ s.ids) :
    s.placed.strainedIds = s.strainedIds.map s.place := by
  unfold strainedIds
  rw [entries_placed hs, List.filter_map, List.map_map, List.map_map]
  refine congrArg _ (List.filter_congr fun e he => ?_)
  exact strained_placed hs (mem_entries.mp he).1 (hinside e.2 (List.mem_map_of_mem he))

theorem entries_widenAll (s : InstructionStream) (ids : List InstrId) : (s.widenAll ids).entries =
    s.entries.map fun e => (e.1, if e.1 ∈ ids then e.2.widen else e.2) := by
  unfold entries
  rw [(widened_widenAll s ids).order, List.map_filterMap]
  refine List.filterMap_congr fun id _ => ?_
  rw [get?_widenAll, Option.map_map]
  split
  · next hid =>
    rw [Option.map_map]
    refine congrArg (Option.map · (s.get? id)) (funext fun i => ?_)
    rw [Function.comp_apply, Function.comp_apply, if_pos hid]
  · next hid =>
    refine congrArg (Option.map · (s.get? id)) (funext fun i => ?_)
    rw [Function.comp_apply, if_neg hid]

theorem place_inj {x y : InstrId} (hx : x ∈ s.ids) (h : s.place x = s.place y) : x = y :=
  (List.idxOf_inj hx).mp (congrArg InstrId.index h)

theorem mem_map_place (ids : List InstrId) (hid : id ∈ s.ids) :
    s.place id ∈ ids.map s.place ↔ id ∈ ids := by
  constructor
  · intro hmem
    obtain ⟨x, hx, hplace⟩ := List.mem_map.mp hmem
    exact place_inj hid hplace.symm ▸ hx
  · exact List.mem_map_of_mem

/-- The same branches are widened by their handles and by their places. -/
theorem placed_widenAll (hs : s.WellFormed) (ids : List InstrId) :
    (s.widenAll ids).placed = s.placed.widenAll (ids.map s.place) := by
  have hw : Widened s (s.widenAll ids) := widened_widenAll s ids
  have hw' : Widened s.placed (s.placed.widenAll (ids.map s.place)) := widened_widenAll s.placed _
  have hplace : (s.widenAll ids).place = s.place := by
    unfold place
    rw [hw.ids]
  have hids : (s.widenAll ids).placed.ids = (s.placed.widenAll (ids.map s.place)).ids := by
    rw [hw'.ids, ids_placed hs, ids_placed (hw.wellFormed hs), hw.ids, hplace]
  refine eq_of_entries (wellFormed_placed (hw.wellFormed hs)) (hw'.wellFormed (wellFormed_placed hs))
    (Array.toList_inj.mp hids) ?_
  rw [entries_placed (hw.wellFormed hs), entries_widenAll, entries_widenAll, entries_placed hs, hplace, List.map_map,
    List.map_map]
  refine List.map_congr_left fun e he => ?_
  have hmem := mem_map_place ids (mem_entries.mp he).1
  simp only [Function.comp_apply, hmem]
  split
  · rw [Instruction.widen_mapTargets]
  · rfl

theorem relax_placed (hs : s.WellFormed) (hinside : ∀ i ∈ s.program, ∀ id ∈ i.targets, id ∈ s.ids) :
    s.placed.relax = s.relax.placed := by
  unfold relax
  rw [strainedIds_placed hs hinside, placed_widenAll hs]

/-- The loop does to the places what it does to the handles. -/
theorem settle_placed (hs : s.WellFormed) (hinside : ∀ i ∈ s.program, ∀ id ∈ i.targets, id ∈ s.ids) :
    s.placed.settle = match s.settle with
      | .ok _ t => .ok t.placed.layout t.placed
      | .error fault t => .error fault t.placed := by
  induction hcount : s.shortCount using Nat.strongRecOn generalizing s with
  | ind n ih =>
    have hw : Widened s s.relax := widened_widenAll s _
    rw [settle_eq s.placed, settle_eq s, last_placed hs, findSome?_missing? hs hinside,
      findSome?_missing? (wellFormed_placed hs) (inside_placed hs hinside)]
    dsimp only
    have hnone : s.placed.strainedIds = [] ↔ s.strainedIds = [] := by
      rw [strainedIds_placed hs hinside, List.map_eq_nil_iff]
    by_cases hlast : wordLimit ≤ s.layout.last
    · rw [if_pos hlast, if_pos hlast]
    · rw [if_neg hlast, if_neg hlast]
      by_cases hstrained : s.strainedIds = []
      · rw [if_pos hstrained, if_pos (hnone.mpr hstrained)]
      · -- Both streams go on with the pass of one of them, and that leaves fewer short branches.
        rw [if_neg hstrained, if_neg (mt hnone.mp hstrained), relax_placed hs hinside]
        exact ih _ (hcount ▸ shortCount_relax_lt hstrained) (hw.wellFormed hs) (hw.inside hs hinside) rfl

/-! ## Writing -/

theorem distance_placed (hs : s.WellFormed) (next : Nat) (hid : id ∈ s.ids) :
    s.placed.layout.distance next (s.place id) = s.layout.distance next id := by
  unfold Layout.distance
  rw [distance?_placed hs next hid]
  unfold Layout.distance?
  rw [hs.starts_layout (List.getElem?_idxOf hid)]
  rfl

theorem codeOnto_placed (hs : s.WellFormed) (hinside : ∀ i ∈ s.program, ∀ id ∈ i.targets, id ∈ s.ids)
    (done : Array UInt8) : s.placed.layout.codeOnto s.placed.entries done = s.layout.codeOnto s.entries done := by
  have hsame (e : InstrId × Instruction) (he : e ∈ s.entries) (start : Nat) :
      s.placed.layout.instruction start (e.2.mapTargets s.place) = s.layout.instruction start e.2 :=
    Layout.instruction_mapTargets fun t ht =>
      distance_placed hs _ (hinside e.2 (List.mem_map_of_mem he) t ht)
  rw [entries_placed hs]
  exact Layout.codeOnto_map (g := fun e => (s.place e.1, e.2.mapTargets s.place)) hsame done

/-- A stream is written as the same program with places for handles. -/
theorem encode_placed (hs : s.WellFormed) (hinside : ∀ i ∈ s.program, ∀ id ∈ i.targets, id ∈ s.ids) :
    s.placed.encode = match s.encode with
      | .ok e t => .ok { e with starts := t.placed.layout.starts } t.placed
      | .error fault t => .error fault t.placed := by
  unfold InstructionStream.encode
  rw [settle_placed hs hinside]
  cases hsettle : s.settle with
  | error fault t => rfl
  | ok l t =>
    obtain ⟨hw, rfl, -⟩ := settle_ok hsettle
    dsimp only
    have hcode := codeOnto_placed (hw.wellFormed hs) (hw.inside hs hinside) #[]
    rw [hcode]
    unfold layout
    cases Layout.codeOnto _ t.entries #[] <;> rfl

end InstructionStream

end CilProbes
