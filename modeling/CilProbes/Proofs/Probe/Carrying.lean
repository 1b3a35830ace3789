import CilProbes.Proofs.Probe.Flow

/-!
# Programs with probes

A body with spliced probes that is written and read again has the instructions that it had before, in their order, and
in front of each of them its probes (`MethodBody.Spliced.carries`).
-/

namespace CilProbes

namespace MethodBody

/-- The program of the body with probes in front of its instructions. -/
def probedProgram (b : MethodBody) (ps : List Splicing) : List Instruction :=
  b.code.ids.flatMap fun id => (ps.filter (·.target = id)).flatMap Splicing.probe ++ (b.code.get? id).toList

/-- The program of `r` is that of `b` with the probes, but for the targets and the length of branches. -/
def Carries (b : MethodBody) (ps : List Splicing) (r : MethodBody) : Prop :=
  ∃ f, List.Forall₂ (Instruction.Carried f) (b.probedProgram ps) r.code.program

variable {b b' b'' : MethodBody} {ps : List Splicing}

/-- Splicing leads the branches to the first probes of their targets. -/
theorem Spliced.program_eq_map (h : Spliced b ps b') (hb : b.code.WellFormed) (hb' : b'.code.WellFormed) :
    b'.code.program = (b.probedProgram ps).map (Instruction.mapTargets (Splicing.entry b.code.arena.size ps)) := by
  rw [h.program hb hb', probedProgram, List.map_flatMap]
  refine List.flatMap_congr fun id _ => ?_
  rw [List.map_append, Splicing.map_mapTargets_probes]
  cases b.code.get? id <;> rfl

/-- The program of written code, with places for handles. -/
theorem program_written (hb : b.WellFormed) : b.written.code.program = b.code.program.mapIdx fun k i =>
    { i with operand := i.operand.mapTargets b.code.place, offset := some (UInt32.ofNat (b.code.startAt k)) } :=
  InstructionStream.program_ofArray (InstructionStream.wellFormed_written hb.code).fits

/-- The targets are the places of the first probes. -/
theorem Spliced.carried (h : Spliced b ps b') (hb : b.WellFormed) (hb' : b'.WellFormed)
    (hcode : b'.code.Widened b''.code) (hb'' : b''.WellFormed) :
    List.Forall₂ (Instruction.Carried (b''.code.place ∘ Splicing.entry b.code.arena.size ps)) (b.probedProgram ps)
      b''.written.code.program := by
  have hlen : (b.probedProgram ps).length = b''.written.code.program.length := by
    rw [program_written hb'', List.length_mapIdx, hb''.code.length_program, hcode.ids, ← hb'.code.length_program,
      h.program_eq_map hb.code hb'.code, List.length_map]
  refine List.forall₂_iff_get.mpr ⟨hlen, fun k hk hk' => ?_⟩
  rw [List.get_eq_getElem, List.get_eq_getElem]
  generalize hi : (b.probedProgram ps)[k] = i
  have hspliced : b'.code.program[k]? = some (i.mapTargets (Splicing.entry b.code.arena.size ps)) := by
    rw [h.program_eq_map hb.code hb'.code, List.getElem?_map, List.getElem?_eq_getElem hk, hi]
    rfl
  obtain ⟨j, hj, hcarried⟩ : ∃ j, b''.code.program[k]? = some j ∧
      i.Carried (Splicing.entry b.code.arena.size ps) j := by
    rcases hcode.program_getElem? hb'.code hspliced with hj | hj
    · exact ⟨_, hj, .inl rfl, rfl⟩
    · exact ⟨_, hj, Instruction.relaxed_widen _⟩
  have hread : b''.written.code.program[k]? = some { j with
      operand := j.operand.mapTargets b''.code.place
      offset := some (UInt32.ofNat (b''.code.startAt k)) } := by
    rw [program_written hb'', List.getElem?_mapIdx, hj]
    rfl
  rw [List.getElem?_eq_getElem hk'] at hread
  rw [Option.some_inj.mp hread]
  have hnew := hcarried.mapTargets b''.code.place
  rw [Instruction.mapTargets_eq] at hnew
  exact ⟨hnew.opcode, hnew.operand⟩

theorem Spliced.carries (h : Spliced b ps b') (hb : b.WellFormed) (hb' : b'.WellFormed)
    (hcode : b'.code.Widened b''.code) (hb'' : b''.WellFormed) : b.Carries ps b''.written :=
  ⟨_, h.carried hb hb' hcode hb''⟩

end MethodBody

end CilProbes
