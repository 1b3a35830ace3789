import CilProbes.Proofs.Body.Placed
import CilProbes.Proofs.Probe.Transparency

/-!
# The order of splices

Probes for different instructions can be spliced in any order (`spliceEach_perm`). Where they stand and what refers to
them is a matter of the instructions that they are for (`Spliced.placed_eq`), not of the handles that they got.
-/

namespace CilProbes

namespace Splicing

variable {ps qs : List Splicing}

/-- Of probes for different instructions, each instruction has the same in front of it in whatever order they come. -/
theorem ahead_of_perm (h : ps.Perm qs) (hnodup : (ps.map target).Nodup) : ahead ps = ahead qs := by
  funext k
  have hperm : (ahead ps k).Perm (ahead qs k) := (h.filter _).filter _
  have htarget {rs : List Splicing} {p : Splicing} (hp : p ∈ ahead rs k) : p ∈ rs ∧ p.target = ⟨k⟩ := by
    obtain ⟨hp, htarget⟩ := List.mem_filter.mp hp
    exact ⟨(List.mem_filter.mp hp).1, of_decide_eq_true htarget⟩
  -- Probes for one instruction are the same probe, so any order relation is antisymmetric on them.
  have htrue (rs : List Splicing) : rs.Pairwise fun _ _ => True := List.pairwise_of_forall fun _ _ => trivial
  refine hperm.eq_of_pairwise (fun p q hp hq _ _ => ?_) (htrue _) (htrue _)
  obtain ⟨hp, hpk⟩ := htarget hp
  obtain ⟨hq, hqk⟩ := htarget hq
  exact List.inj_on_of_nodup_map hnodup hp (h.mem_iff.mpr hq) (hpk.trans hqk.symm)

theorem enter_of_ahead (h : ahead ps = ahead qs) : enter ps = enter qs := by
  funext k
  induction k with
  | zero => rfl
  | succ k ih => rw [enter, enter, ih, h]

theorem home_of_ahead (h : ahead ps = ahead qs) : home ps = home qs := by
  funext k
  rw [home, home, enter_of_ahead h, h]

end Splicing

namespace MethodBody

/-- Splices one probe after another, up to the first that is refused. -/
def spliceEach (b : MethodBody) (ps : List Splicing) : Except Fault MethodBody :=
  ps.foldlM (fun b p => (b.splice p.target p.api p.id).map Prod.snd) b

/-- The body with probes in front of its instructions, and with places for handles. -/
def probed (b : MethodBody) (ps : List Splicing) : MethodBody :=
  { b with
    code := .ofArray ((List.range b.code.arena.size).flatMap fun k => (Splicing.ahead ps k).flatMap Splicing.probe ++
      ((b.code.get? ⟨k⟩).map (Instruction.mapTargets (Splicing.enterId ps))).toList).toArray
    clauses := b.clauses.map (ExceptionClause.mapReferences (Splicing.enterId ps)) }

variable {b b' : MethodBody} {ps qs : List Splicing} {id : InstrId}

theorem probed_of_ahead (h : Splicing.ahead ps = Splicing.ahead qs) : b.probed ps = b.probed qs := by
  have henter : Splicing.enterId ps = Splicing.enterId qs := by
    funext id
    rw [Splicing.enterId, Splicing.enterId, Splicing.enter_of_ahead h]
  unfold probed
  rw [h, henter]

/-- Probes that are accepted are spliced one after another. -/
theorem spliceEach_eq (hb : b.code.WellFormed) (h : ∀ p ∈ ps, p.target ∈ b.code.ids ∧ p.isAccepted = true) :
    b.spliceEach ps = .ok (b.spliceAll ps) := by
  induction ps using List.reverseRecOn with
  | nil => rfl
  | append_singleton ps p ih =>
    have hps : ∀ q ∈ ps, q.target ∈ b.code.ids ∧ q.isAccepted = true := fun q hq => h q (List.mem_append_left _ hq)
    obtain ⟨htarget, haccepted⟩ := h p (List.mem_append_right _ List.mem_cons_self)
    have hspliced := spliced_spliceAll hb fun q hq => (hps q hq).1
    obtain ⟨b', hsplice, -⟩ := hspliced.concat hb htarget haccepted
    have hall : b.spliceAll (ps ++ [p]) = b' := by
      unfold spliceAll at hsplice ⊢
      rw [List.foldl_append, List.foldl_cons, List.foldl_nil, hsplice]
    have heach := ih hps
    unfold spliceEach at heach ⊢
    rw [List.foldlM_append, heach, hall]
    show ((b.spliceAll ps).splice p.target p.api p.id).map Prod.snd >>= pure = _
    rw [hsplice]
    rfl

/-- Where no splice was refused, all probes were accepted. -/
theorem accepted_of_spliceEach (h : b.spliceEach ps = .ok b') : ∀ p ∈ ps, p.isAccepted = true := by
  induction ps generalizing b with
  | nil => exact fun _ hp => absurd hp List.not_mem_nil
  | cons p ps ih =>
    unfold spliceEach at h ih
    rw [List.foldlM_cons] at h
    obtain ⟨b₁, hfirst, h⟩ := bind_ok.mp h
    obtain ⟨⟨entry, _⟩, hsplice, rfl⟩ := map_ok.mp hfirst
    exact List.forall_mem_cons.mpr ⟨decide_eq_true (accepted_of_splice hsplice), ih h⟩

/-- Splices one after another of which none was refused. -/
theorem spliced_spliceEach (hb : b.WellFormed) (htargets : ∀ p ∈ ps, p.target ∈ b.code.ids)
    (h : b.spliceEach ps = .ok b') : Spliced b ps b' ∧ b'.WellFormed := by
  have haccepted := accepted_of_spliceEach h
  rw [spliceEach_eq hb.code fun p hp => ⟨htargets p hp, haccepted p hp⟩] at h
  cases h
  have hspliced := spliced_spliceAll hb.code htargets
  rw [List.filter_eq_self.mpr haccepted] at hspliced
  exact ⟨hspliced, hb.spliceAll ps⟩

/-! ## Spliced bodies with places for handles -/

theorem Spliced.mem_entry (h : Spliced b ps b') (hid : id ∈ b.code.ids) :
    Splicing.entry b.code.arena.size ps id ∈ b'.code.ids := by
  rw [h.ids]
  exact List.mem_flatMap.mpr ⟨id, hid, Splicing.entry_mem _ ps id⟩

theorem Spliced.mem_ids (h : Spliced b ps b') (hid : id ∈ b.code.ids) : id ∈ b'.code.ids := by
  rw [h.ids]
  exact List.mem_flatMap.mpr ⟨id, hid, List.mem_append_right _ (List.mem_singleton_self id)⟩

/-- The branches and the clauses refer to probes and to instructions of the body. -/
theorem Spliced.inside (h : Spliced b ps b') (hb : b.WellFormed) (hb' : b'.WellFormed) (hinside : b.Inside) :
    b'.Inside where
  branches i hi id hid := by
    rw [h.program hb.code hb'.code] at hi
    obtain ⟨home, hhome, hi⟩ := List.mem_flatMap.mp hi
    rcases List.mem_append.mp hi with hi | hi
    · rw [(Instruction.plain_of_mem_probe hi).2.1] at hid
      exact absurd hid List.not_mem_nil
    · obtain ⟨old, hold, rfl⟩ := Option.map_eq_some_iff.mp (Option.mem_toList.mp hi)
      rw [Instruction.targets_mapTargets] at hid
      obtain ⟨target, htarget, rfl⟩ := List.mem_map.mp hid
      have hmem : old ∈ b.code.program :=
        List.mem_map.mpr ⟨(home, old), InstructionStream.mem_entries.mpr ⟨hhome, hold⟩, rfl⟩
      exact h.mem_entry (hinside.branches old hmem target htarget)
  clauses c hc id hid := by
    rw [h.rest] at hc
    obtain ⟨old, hold, rfl⟩ := List.mem_map.mp hc
    rw [ExceptionClause.references_mapReferences] at hid
    obtain ⟨reference, hreference, rfl⟩ := List.mem_map.mp hid
    exact h.mem_entry (hinside.clauses old hold reference hreference)

/-- Up to handles, a body with probes is given by the probes in front of each instruction. -/
theorem Spliced.placed_eq (h : Spliced b (ps.filter Splicing.isAccepted) b') (hb : b.Parsed) (hb' : b'.WellFormed) :
    b'.placed = b.probed ps := by
  have hplace (id : InstrId) (hid : id.index < b.code.arena.size) :
      b'.code.place (Splicing.entry b.code.arena.size (ps.filter Splicing.isAccepted) id) = Splicing.enterId ps id :=
    h.place_entry hb.code hb' hid
  have hprogram : b'.code.program.map (Instruction.mapTargets b'.code.place) =
      (List.range b.code.arena.size).flatMap fun k => (Splicing.ahead ps k).flatMap Splicing.probe ++
        ((b.code.get? ⟨k⟩).map (Instruction.mapTargets (Splicing.enterId ps))).toList := by
    rw [h.program_eq hb hb', List.map_flatMap]
    refine List.flatMap_congr fun k _ => ?_
    rw [List.map_append, Splicing.map_mapTargets_probes]
    refine congrArg (_ ++ ·) ?_
    cases hi : b.code.get? ⟨k⟩ with
    | none => rfl
    | some i =>
      have hinside := hb.code.inside i (Array.mem_of_getElem? hi)
      have hsame : (i.mapTargets (Splicing.entry b.code.arena.size (ps.filter Splicing.isAccepted))).mapTargets
          b'.code.place = i.mapTargets (Splicing.enterId ps) := by
        rw [Instruction.mapTargets_mapTargets]
        exact Instruction.mapTargets_congr fun t ht => hplace t (hinside t ht)
      exact congrArg (fun j => [j]) hsame
  have hclauses : b'.clauses.map (ExceptionClause.mapReferences b'.code.place) =
      b.clauses.map (ExceptionClause.mapReferences (Splicing.enterId ps)) := by
    rw [congrArg MethodBody.clauses h.rest, List.map_map]
    refine List.map_congr_left fun c hc => ?_
    rw [Function.comp_apply, ExceptionClause.mapReferences_mapReferences]
    exact ExceptionClause.mapReferences_congr fun id hid => hplace id (hb.inside c hc id hid)
  unfold placed probed InstructionStream.placed
  rw [hprogram, hclauses, h.rest]

/--
Probes for different instructions of a body that was read are spliced in any order. Written, the body either is refused
with the same fault, or has the same bytes and its instructions at the same offsets. What is read again is the same
body, and its clauses refer to the first probes of what they referred to.
-/
theorem spliceEach_perm {data : List UInt8} (hdata : parse data = .ok b)
    (hps : ∀ p ∈ ps, p.target ∈ b.code.ids ∧ p.isAccepted = true) (hnodup : (ps.map Splicing.target).Nodup)
    (hperm : ps.Perm qs) : ∃ b₁ b₂, b.spliceEach ps = .ok b₁ ∧ b.spliceEach qs = .ok b₂ ∧
      ((∃ fault b₁' b₂', b₁.encode = .error fault b₁' ∧ b₂.encode = .error fault b₂') ∨
        ∃ e₁ b₁' e₂ b₂' r, b₁.encode = .ok e₁ b₁' ∧ b₂.encode = .ok e₂ b₂' ∧ e₁.bytes = e₂.bytes ∧
          parse e₁.bytes = .ok r ∧ parse e₂.bytes = .ok r ∧
          r.clauses = b.clauses.map (ExceptionClause.mapReferences (Splicing.enterId ps)) ∧
          ∀ id ∈ b.code.ids, ∃ start, e₁.starts.get? id = some start ∧ e₂.starts.get? id = some start) := by
  have hb := parsed_of_parse hdata
  have hqs : ∀ q ∈ qs, q.target ∈ b.code.ids ∧ q.isAccepted = true := fun q hq => hps q (hperm.mem_iff.mpr hq)
  have hs₁ := spliced_spliceAll hb.wellFormed.code fun p hp => (hps p hp).1
  have hs₂ := spliced_spliceAll hb.wellFormed.code fun q hq => (hqs q hq).1
  have hwf₁ := hb.wellFormed.spliceAll ps
  have hwf₂ := hb.wellFormed.spliceAll qs
  have hahead := Splicing.ahead_of_perm hperm hnodup
  have hplaced : (b.spliceAll ps).placed = (b.spliceAll qs).placed := by
    rw [hs₁.placed_eq hb hwf₁, hs₂.placed_eq hb hwf₂, probed_of_ahead hahead]
  refine ⟨_, _, spliceEach_eq hb.wellFormed.code hps, spliceEach_eq hb.wellFormed.code hqs, ?_⟩
  rcases encode_of_placed_eq hwf₁.code hwf₂.code (hs₁.inside hb.wellFormed hwf₁ hb.inside_ids)
    (hs₂.inside hb.wellFormed hwf₂ hb.inside_ids) hplaced with hrefused | ⟨e₁, b₁', e₂, b₂', he₁, he₂, hbytes, hstarts⟩
  · exact .inl hrefused
  · have hlt : ∀ p ∈ ps, p.target.index < b.code.length := fun p hp =>
      hb.code.length_eq ▸ (hb.wellFormed.code.mem_ids p.target).mp (hps p hp).1
    obtain ⟨hparse, hread⟩ := interleaved_of_encode hb hlt he₁
    refine .inr ⟨e₁, b₁', e₂, b₂', b₁'.written, he₁, he₂, hbytes, hparse, hbytes ▸ hparse, hread.clauses, ?_⟩
    intro id hid
    have hk : id.index < b.code.arena.size := (hb.wellFormed.code.mem_ids id).mp hid
    have hplace : (b.spliceAll ps).code.place id = (b.spliceAll qs).code.place id := by
      rw [hs₁.place_home hb.code hwf₁ hk, hs₂.place_home hb.code hwf₂ hk, Splicing.home_of_ahead hahead]
    exact hstarts id (hs₁.mem_ids hid) id (hs₂.mem_ids hid) hplace

/-- Probes for the instructions at some places, with the places for numbers. -/
def probesAt (places : List Nat) : List Splicing :=
  places.map fun k => ⟨⟨k⟩, ⟨⟨0x70000001⟩, ⟨0x0A000001⟩⟩, UInt32.ofNat k⟩

/-- Probes at both ends of a region with a `finally` handler, and at the instruction that the region is left for. -/
theorem spliceEach_perm_finally : ∃ b b₁ b₂ e₁ b₁' e₂ b₂' r,
    parse [0x0B, 0x30, 8, 0, 5, 0, 0, 0, 0, 0, 0, 0, 0x00, 0xDE, 0x01, 0xDC, 0x2A, 0, 0, 0,
      0x01, 0x10, 0, 0, 2, 0, 0, 0, 3, 3, 0, 1, 0, 0, 0, 0] = .ok b ∧
      b.spliceEach (probesAt [0, 2, 3]) = .ok b₁ ∧ b.spliceEach (probesAt [3, 0, 2]) = .ok b₂ ∧
      b₁.encode = .ok e₁ b₁' ∧ b₂.encode = .ok e₂ b₂' ∧ e₁.bytes = e₂.bytes ∧
      parse e₁.bytes = .ok r ∧ parse e₂.bytes = .ok r ∧
      r.clauses = b.clauses.map (ExceptionClause.mapReferences (Splicing.enterId (probesAt [0, 2, 3]))) ∧
      ∀ id ∈ b.code.ids, ∃ start, e₁.starts.get? id = some start ∧ e₂.starts.get? id = some start := by
  have hcheck : ∃ b, parse [0x0B, 0x30, 8, 0, 5, 0, 0, 0, 0, 0, 0, 0, 0x00, 0xDE, 0x01, 0xDC, 0x2A, 0, 0, 0,
      0x01, 0x10, 0, 0, 2, 0, 0, 0, 3, 3, 0, 1, 0, 0, 0, 0] = .ok b ∧
      (∀ p ∈ probesAt [0, 2, 3], p.target ∈ b.code.ids ∧ p.isAccepted = true) ∧
      ∃ e₁ b₁', (b.spliceAll (probesAt [0, 2, 3])).encode = .ok e₁ b₁' ∧ b.clauses.length = 1 := by
    decide +kernel
  obtain ⟨b, hdata, hps, e₁, b₁', he₁, -⟩ := hcheck
  have hperm : (probesAt [0, 2, 3]).Perm (probesAt [3, 0, 2]) := by decide
  have heach := spliceEach_eq (parsed_of_parse hdata).wellFormed.code hps
  obtain ⟨b₁, b₂, h₁, h₂, hwritten⟩ := spliceEach_perm hdata hps (by decide) hperm
  obtain rfl : b.spliceAll (probesAt [0, 2, 3]) = b₁ := Except.ok.inj (heach.symm.trans h₁)
  rcases hwritten with ⟨fault, _, _, hrefused, -⟩ | ⟨e₁, b₁', e₂, b₂', r, hwritten⟩
  · rw [he₁] at hrefused
    cases hrefused
  · exact ⟨b, _, b₂, e₁, b₁', e₂, b₂', r, hdata, h₁, h₂, hwritten⟩

end MethodBody

end CilProbes
