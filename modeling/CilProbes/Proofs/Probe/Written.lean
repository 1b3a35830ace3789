import CilProbes.Proofs.Probe.Places

/-!
# Written bodies with probes

A body with spliced probes as it is read again (`Spliced.program`, `Spliced.place_entry`): block after block, each with
the probes for one instruction and the instruction behind them.
-/

namespace CilProbes

namespace InstructionStream

variable {s t : InstructionStream} {is : List Instruction} {index : Nat}

theorem WellFormed.insertAllAt (hs : s.WellFormed) (hfit : ∀ i ∈ is, i.operand.fits i.kind = true)
    (h : s.insertAllAt index is = .ok t) : t.WellFormed := by
  induction is generalizing s index with
  | nil =>
    cases h
    exact hs
  | cons i is ih =>
    obtain ⟨s', hs', h⟩ := bind_ok.mp h
    exact ih (hs.insertAt (hfit i List.mem_cons_self) hs') (fun j hj => hfit j (List.mem_cons_of_mem _ hj)) h

end InstructionStream

namespace MethodBody

variable {b b' : MethodBody} {ps : List Splicing}

theorem wellFormed_code_redirect (hb : b.code.WellFormed) (displaced replacement : InstrId) :
    (b.redirect displaced replacement).code.WellFormed :=
  hb.map fun i hi => by
    rw [Instruction.mapTargets_eq]
    exact (Operand.fits_mapTargets ..).trans (hb.fits i hi)

theorem WellFormed.redirect (hb : b.WellFormed) (displaced replacement : InstrId) :
    (b.redirect displaced replacement).WellFormed where
  code := wellFormed_code_redirect hb.code ..
  clauses c hc := by
    obtain ⟨old, hold, rfl⟩ := List.mem_map.mp hc
    exact (hb.clauses old hold).mapReferences _

section Splice

variable {target entry : InstrId} {api : ProbeApi} {id : UInt32}

/-- A splice that is accepted inserts the probe and leads the references to it. -/
theorem splice_ok (h : b.splice target api id = .ok (entry, b')) :
    ∃ index code, b.code.insertAllAt index (api.probe id) = .ok code ∧ b' = (b.withCode code).redirect target entry := by
  unfold MethodBody.splice at h
  split at h
  · cases h
  · split at h
    · cases h
    · next index _ =>
      obtain ⟨code, hcode, h⟩ := bind_ok.mp h
      cases h
      exact ⟨index, code, hcode, rfl⟩

theorem fits_probe (api : ProbeApi) (id : UInt32) : ∀ i ∈ api.probe id, i.operand.fits i.kind = true := by
  simp [ProbeApi.probe, Instruction.loadString, Instruction.loadInt, Instruction.call, Instruction.kind,
    Opcode.loadString, Opcode.loadInt, Opcode.call, Operand.fits]

/-- Whatever its clauses are, code stays well formed. -/
theorem wellFormed_code_splice (hb : b.code.WellFormed) (h : b.splice target api id = .ok (entry, b')) :
    b'.code.WellFormed := by
  obtain ⟨index, code, hcode, rfl⟩ := splice_ok h
  have hwf : (b.withCode code).code.WellFormed := hb.insertAllAt (fits_probe api id) hcode
  exact wellFormed_code_redirect hwf ..

theorem WellFormed.splice (hb : b.WellFormed) (h : b.splice target api id = .ok (entry, b')) : b'.WellFormed := by
  obtain ⟨index, code, hcode, rfl⟩ := splice_ok h
  have hwf : (b.withCode code).WellFormed := ⟨hb.code.insertAllAt (fits_probe api id) hcode, hb.clauses⟩
  exact hwf.redirect ..

end Splice

theorem WellFormed.spliceAll (hb : b.WellFormed) (ps : List Splicing) : (b.spliceAll ps).WellFormed := by
  unfold MethodBody.spliceAll
  induction ps generalizing b with
  | nil => exact hb
  | cons p ps ih =>
    refine ih ?_
    dsimp only
    split
    · next hp => exact hb.splice hp
    · exact hb

/-! ## The program of a spliced body -/

/-- The instructions of the probes in front of an instruction. -/
theorem map_handlesAt {get : Nat → Option Instruction} {next : Nat} (id : InstrId)
    (h : ∀ j < 3 * ps.length, get (next + j) = (ps.flatMap Splicing.probe)[j]?) :
    (Splicing.handlesAt id next ps).map (fun x => get x.index) =
      ((ps.filter (·.target = id)).flatMap Splicing.probe).map some := by
  induction ps generalizing next with
  | nil => rfl
  | cons p ps ih =>
    have hlater (j : Nat) (hj : j < 3 * ps.length) : get (next + 3 + j) = (ps.flatMap Splicing.probe)[j]? := by
      have hprobe : p.probe.length = 3 := rfl
      rw [Nat.add_assoc, h (3 + j) (by rw [List.length_cons]; omega), List.flatMap_cons,
        List.getElem?_append_right (hprobe ▸ Nat.le_add_right 3 j), hprobe, Nat.add_sub_cancel_left]
    have hrest := ih hlater
    have hfirst (j : Nat) (hj : j < 3) : get (next + j) = p.probe[j]? := by
      rw [h j (by rw [List.length_cons]; omega), List.flatMap_cons]
      exact List.getElem?_append_left hj
    rw [Splicing.handlesAt]
    split
    · next htarget =>
      rw [List.filter_cons_of_pos (by simpa using htarget), List.flatMap_cons, List.map_append, List.map_append, hrest]
      refine congrArg (· ++ _) ?_
      show [get (next + 0), get (next + 1), get (next + 2)] = _
      rw [hfirst 0 (by decide), hfirst 1 (by decide), hfirst 2 (by decide)]
      rfl
    · next htarget => rw [List.filter_cons_of_neg (by simpa using htarget), hrest]

/-- The instructions of a body keep their handles when probes are spliced. -/
theorem Spliced.get?_old (h : Spliced b ps b') {id : InstrId} (hid : id.index < b.code.arena.size) :
    b'.code.get? id = (b.code.get? id).map (Instruction.mapTargets (Splicing.entry b.code.arena.size ps)) := by
  unfold InstructionStream.get?
  rw [← Array.getElem?_toList, h.arena, List.getElem?_append_left (by simpa using hid), List.getElem?_map,
    Array.getElem?_toList]

theorem Spliced.get?_new (h : Spliced b ps b') (j : Nat) :
    b'.code.arena[b.code.arena.size + j]? = (ps.flatMap Splicing.probe)[j]? := by
  rw [← Array.getElem?_toList, h.arena, List.getElem?_append_right (by simp)]
  simp

theorem Spliced.map_get?_handlesAt (h : Spliced b ps b') (id : InstrId) :
    (Splicing.handlesAt id b.code.arena.size ps).map b'.code.get? =
      ((ps.filter (·.target = id)).flatMap Splicing.probe).map some :=
  map_handlesAt id fun j _ => h.get?_new j

/-- In front of an instruction stand instructions of the probes for it. -/
theorem Spliced.get?_probe (h : Spliced b ps b') {id x : InstrId}
    (hx : x ∈ Splicing.handlesAt id b.code.arena.size ps) :
    ∃ p ∈ ps, ∃ i ∈ p.probe, b'.code.get? x = some i := by
  have hmem := List.mem_map_of_mem (f := b'.code.get?) hx
  rw [h.map_get?_handlesAt id] at hmem
  obtain ⟨i, hi, hget⟩ := List.mem_map.mp hmem
  obtain ⟨p, hp, hi⟩ := List.mem_flatMap.mp hi
  exact ⟨p, List.mem_of_mem_filter hp, i, hi, hget.symm⟩

/-- The clauses of a body with probes are those of the body, but for what they refer to. -/
theorem Spliced.wellFormed (h : Spliced b ps b') (hb : b.WellFormed) (hcode : b'.code.WellFormed) : b'.WellFormed where
  code := hcode
  clauses c hc := by
    rw [congrArg MethodBody.clauses h.rest] at hc
    obtain ⟨old, hold, rfl⟩ := List.mem_map.mp hc
    exact (hb.clauses old hold).mapReferences _

/-- The program of a body with probes: in front of each instruction, its probes. -/
theorem Spliced.program (h : Spliced b ps b') (hb : b.code.WellFormed) (hb' : b'.code.WellFormed) :
    b'.code.program = b.code.ids.flatMap fun id =>
      (ps.filter (·.target = id)).flatMap Splicing.probe ++
        ((b.code.get? id).map (Instruction.mapTargets (Splicing.entry b.code.arena.size ps))).toList := by
  refine List.map_injective_iff.mpr (Option.some_injective _) ?_
  rw [hb'.map_some_program, h.ids, List.map_flatMap, List.map_flatMap]
  refine List.flatMap_congr fun id hid => ?_
  have hold := (hb.mem_ids id).mp hid
  obtain ⟨i, hi⟩ := hb.exists_get? hid
  rw [List.map_append, List.map_append, List.map_singleton, h.get?_old hold, hi]
  exact congrArg (· ++ _) (h.map_get?_handlesAt id)

/-! ## Places in the program of a spliced body -/

variable {k : Nat}

/-- The handles of a block. -/
theorem Spliced.ids_eq (h : Spliced b (ps.filter Splicing.isAccepted) b') (hb : b.code.Parsed) :
    b'.code.ids = (List.range b.code.arena.size).flatMap fun k =>
      Splicing.handlesAt ⟨k⟩ b.code.arena.size (ps.filter Splicing.isAccepted) ++ [(⟨k⟩ : InstrId)] := by
  rw [h.ids, hb.ids_eq, List.flatMap_map]

theorem length_handleBlock (ps : List Splicing) (next k : Nat) :
    (Splicing.handlesAt ⟨k⟩ next (ps.filter Splicing.isAccepted) ++ [(⟨k⟩ : InstrId)]).length =
      3 * (Splicing.ahead ps k).length + 1 := by
  rw [List.length_append, Splicing.length_handlesAt]
  rfl

/-- The handles of the block of an instruction lie from its entry on. -/
theorem Spliced.place_block (h : Spliced b (ps.filter Splicing.isAccepted) b') (hb : b.code.Parsed)
    (hb' : b'.WellFormed) (hk : k < b.code.arena.size) {j : Nat} {id : InstrId}
    (hid : (Splicing.handlesAt ⟨k⟩ b.code.arena.size (ps.filter Splicing.isAccepted) ++ [(⟨k⟩ : InstrId)])[j]? =
      some id) :
    b'.code.place id = ⟨Splicing.enter ps k + j⟩ := by
  have hj := (List.getElem?_eq_some_iff.mp hid).1
  have hblock (k : Nat) (_ : k < b.code.arena.size) := length_handleBlock ps b.code.arena.size k
  refine hb'.code.place_eq ?_
  rw [h.ids_eq hb, (Splicing.flatMap_range_getElem? hblock).2 k hk j hj]
  exact hid

/-- What referred to an instruction refers to the place where its probes begin. -/
theorem Spliced.place_entry (h : Spliced b (ps.filter Splicing.isAccepted) b') (hb : b.code.Parsed)
    (hb' : b'.WellFormed) (hk : k < b.code.arena.size) :
    b'.code.place (Splicing.entry b.code.arena.size (ps.filter Splicing.isAccepted) ⟨k⟩) = ⟨Splicing.enter ps k⟩ :=
  h.place_block hb hb' hk (Splicing.getElem?_entry ..)

/-- An instruction lies behind its probes. -/
theorem Spliced.place_home (h : Spliced b (ps.filter Splicing.isAccepted) b') (hb : b.code.Parsed)
    (hb' : b'.WellFormed) (hk : k < b.code.arena.size) : b'.code.place ⟨k⟩ = ⟨Splicing.home ps k⟩ := by
  have hlen : (Splicing.handlesAt ⟨k⟩ b.code.arena.size (ps.filter Splicing.isAccepted)).length =
      3 * (Splicing.ahead ps k).length := Splicing.length_handlesAt
  refine h.place_block hb hb' hk ?_
  rw [← hlen]
  exact List.getElem?_concat_length

/-- The instructions of a block. -/
theorem Spliced.program_eq (h : Spliced b (ps.filter Splicing.isAccepted) b') (hb : b.Parsed) (hb' : b'.WellFormed) :
    b'.code.program = (List.range b.code.arena.size).flatMap fun k =>
      (Splicing.ahead ps k).flatMap Splicing.probe ++ ((b.code.get? ⟨k⟩).map (Instruction.mapTargets
        (Splicing.entry b.code.arena.size (ps.filter Splicing.isAccepted)))).toList := by
  rw [h.program hb.wellFormed.code hb'.code, hb.code.ids_eq, List.flatMap_map]
  rfl

theorem length_block (hb : b.Parsed) {f : Instruction → Instruction} (hk : k < b.code.arena.size) :
    ((Splicing.ahead ps k).flatMap Splicing.probe ++ ((b.code.get? ⟨k⟩).map f).toList).length =
      3 * (Splicing.ahead ps k).length + 1 := by
  obtain ⟨i, hi⟩ := hb.wellFormed.code.exists_get? ((hb.wellFormed.code.mem_ids ⟨k⟩).mpr hk)
  rw [List.length_append, Splicing.length_probes, hi]
  rfl

theorem Spliced.length_program (h : Spliced b (ps.filter Splicing.isAccepted) b') (hb : b.Parsed)
    (hb' : b'.WellFormed) : b'.code.program.length = Splicing.enter ps b.code.arena.size := by
  rw [h.program_eq hb hb']
  exact (Splicing.flatMap_range_getElem? fun k hk => length_block hb hk).1

/-- The instructions of the probes in front of an instruction lie from its entry on. -/
theorem Spliced.program_probe (h : Spliced b (ps.filter Splicing.isAccepted) b') (hb : b.Parsed)
    (hb' : b'.WellFormed) (hk : k < b.code.arena.size) {j : Nat} {i : Instruction}
    (hi : ((Splicing.ahead ps k).flatMap Splicing.probe)[j]? = some i) :
    b'.code.program[Splicing.enter ps k + j]? = some i := by
  obtain ⟨hj, _⟩ := List.getElem?_eq_some_iff.mp hi
  rw [h.program_eq hb hb', (Splicing.flatMap_range_getElem? fun k hk => length_block hb hk).2 k hk j
    (by rw [List.length_append]; exact Nat.lt_add_right _ hj), List.getElem?_append_left hj]
  exact hi

/-- An instruction lies behind its probes, with its branches leading to the entries of their targets. -/
theorem Spliced.program_home (h : Spliced b (ps.filter Splicing.isAccepted) b') (hb : b.Parsed) (hb' : b'.WellFormed)
    {i : Instruction} (hi : b.code.get? ⟨k⟩ = some i) :
    b'.code.program[Splicing.home ps k]? =
      some (i.mapTargets (Splicing.entry b.code.arena.size (ps.filter Splicing.isAccepted))) := by
  have hk : k < b.code.arena.size := (InstructionStream.get?_eq_some.mp hi).1
  have hlen : ((Splicing.ahead ps k).flatMap Splicing.probe).length = 3 * (Splicing.ahead ps k).length :=
    Splicing.length_probes _
  rw [h.program_eq hb hb', Splicing.home, (Splicing.flatMap_range_getElem? fun k hk => length_block hb hk).2 k hk _
    (by rw [length_block hb hk]; exact Nat.lt_succ_self _), List.getElem?_append_right (Nat.le_of_eq hlen), hlen,
    Nat.sub_self, hi]
  rfl

end MethodBody

end CilProbes
