import CilProbes.Proofs.Coverage.Selection

/-!
# The stack of probed methods

A probe pushes two values onto the stack as it is in front of its instruction, and takes both off again. A method that
gets probes declares two slots more than before, or as many as a header can declare: these are enough for its program
with the probes, unless it needs more slots than that (`Weave.method_stack`).
-/

namespace CilProbes

/-- The instructions of a probe, each with the slots that it needs where `depth` slots are in use in front of the probe. -/
def Splicing.slots (depth : Nat) (p : Splicing) : List (Instruction × Nat) :=
  p.probe.zip [depth + 1, depth + 2, depth + 2]

namespace MethodBody

/-- The program of the body with probes, each instruction with the slots that it needs; those of the body need as many as
are in use in front of them. -/
def slots (b : MethodBody) (depth : InstrId → Nat) (ps : List Splicing) : List (Instruction × Nat) :=
  b.code.ids.flatMap fun id => (ps.filter (·.target = id)).flatMap (Splicing.slots (depth id)) ++
    (b.code.get? id).toList.map fun i => (i, depth id)

variable {b : MethodBody} {depth : InstrId → Nat} {ps : List Splicing} {n : Nat}

theorem map_fst_slots (b : MethodBody) (depth : InstrId → Nat) (ps : List Splicing) :
    (b.slots depth ps).map Prod.fst = b.probedProgram ps := by
  unfold slots probedProgram
  rw [List.map_flatMap]
  refine List.flatMap_congr fun id _ => ?_
  rw [List.map_append, List.map_flatMap, List.map_map]
  exact congrArg _ (List.map_id'' (fun _ => rfl) _)

/-- An instruction of the body needs no slots beyond those in use, one of a probe up to two. -/
theorem le_of_mem_slots (h : ∀ id ∈ b.code.ids, depth id ≤ n) {e : Instruction × Nat} (he : e ∈ b.slots depth ps) :
    e.2 ≤ n ∨ ps ≠ [] ∧ e.2 ≤ n + 2 := by
  obtain ⟨id, hid, he⟩ := List.mem_flatMap.mp he
  have hdepth := h id hid
  rcases List.mem_append.mp he with he | he
  · obtain ⟨p, hp, he⟩ := List.mem_flatMap.mp he
    refine .inr ⟨List.ne_nil_of_mem (List.mem_of_mem_filter hp), ?_⟩
    simp only [Splicing.slots, Splicing.probe, ProbeApi.probe, List.zip_cons_cons, List.zip_nil_left, List.mem_cons,
      List.not_mem_nil, or_false] at he
    rcases he with rfl | rfl | rfl <;> dsimp only <;> omega
  · obtain ⟨i, -, rfl⟩ := List.mem_map.mp he
    exact .inl hdepth

/-- The last instruction of a probe needs two slots more than are in use. -/
theorem mem_slots_call {p : Splicing} (hp : p ∈ ps) (htarget : p.target ∈ b.code.ids) :
    (Instruction.call p.api.hitMethod, depth p.target + 2) ∈ b.slots depth ps := by
  refine List.mem_flatMap.mpr ⟨p.target, htarget, List.mem_append_left _ (List.mem_flatMap.mpr ⟨p, ?_, ?_⟩)⟩
  · exact List.mem_filter.mpr ⟨hp, decide_eq_true rfl⟩
  · simp [Splicing.slots, Splicing.probe, ProbeApi.probe]

end MethodBody

namespace Weave

variable {c : Context} {typeName : String} {a a' : Method} {b : MethodBody} {placed : List PlacedProbe}
  {s s' : Logged Session} {depth : InstrId → Nat}

theorem toNat_addSaturating (m n : UInt16) : (addSaturating m n).toNat = min (m.toNat + n.toNat) 0xFFFF := by
  unfold addSaturating
  split
  · next hlt =>
    rw [UInt16.toNat_add, Nat.mod_eq_of_lt hlt]
    omega
  · next hle =>
    show 0xFFFF = _
    omega

/-- The stack of a body with points at its instructions. -/
theorem stack_suffices (hbody : a.body = some b) (hb : b.code.WellFormed)
    (hpoints : ∀ p ∈ a.points, p.instruction ∈ b.code.ids) (hdepth : ∀ id ∈ b.code.ids, depth id ≤ b.maxStack.toNat)
    (h : Weave.method c typeName a s = .ok (a', placed) s') :
    ∃ (marks : List Mark) (b' : MethodBody), placed = marks.map Mark.probe ∧ (∀ mark ∈ marks, mark.point ∈ a.points) ∧
      a' = { a with body := some b' } ∧
      b'.code.program = (b.slots depth (marks.map (Mark.splicing c.api))).map (fun e =>
        e.1.mapTargets (Splicing.entry b.code.arena.size (marks.map (Mark.splicing c.api)))) ∧
      ∀ e ∈ b.slots depth (marks.map (Mark.splicing c.api)),
        e.2 ≤ b'.maxStack.toNat ∨ 0xFFFF < e.2 ∧ b'.maxStack = 0xFFFF := by
  obtain ⟨marks, spliced, rfl, hspliced, hcode, rfl, hmarks⟩ := method_marks hbody hb hpoints h
  refine ⟨marks, _, rfl, fun mark hmark => (hmarks mark hmark).1, rfl, ?_, fun e he => ?_⟩
  · refine (hspliced.program_eq_map hb hcode).trans ?_
    rw [← MethodBody.map_fst_slots b depth, List.map_map]
    rfl
  · have hneed := MethodBody.le_of_mem_slots hdepth he
    rw [ne_eq, List.map_eq_nil_iff] at hneed
    by_cases hnone : marks = []
    · exact .inl (by simpa [hnone] using hneed)
    · have hraised := toNat_addSaturating b.maxStack probeDepth
      have htwo : probeDepth.toNat = 2 := rfl
      have hword := (addSaturating b.maxStack probeDepth).toNat_lt
      dsimp only
      rw [if_neg hnone]
      by_cases hlarge : 0xFFFF < e.2
      · refine .inr ⟨hlarge, UInt16.toNat_inj.mp ?_⟩
        show _ = 0xFFFF
        omega
      · exact .inl (by omega)

/--
Where the stack that a method of a loaded module declares is enough for its instructions, the stack that it declares with
its probes is enough for every instruction of these and of its body, or it is the largest that can be declared and the
instruction needs more.
-/
theorem method_stack {σ : Type} {t t' : Logged σ} {m woven : Module} {image : List UInt8} {symbols : Option (List UInt8)}
    (hm : Module.loadWith image symbols t = .ok m t') (hwoven : Offers m woven) (ha : a ∈ woven.methods)
    (hbody : a.body = some b) (hdepth : ∀ id ∈ b.code.ids, depth id ≤ b.maxStack.toNat)
    (h : Weave.method c typeName a s = .ok (a', placed) s') :
    ∃ (marks : List Mark) (b' : MethodBody), placed = marks.map Mark.probe ∧ (∀ mark ∈ marks, mark.point ∈ a.points) ∧
      a' = { a with body := some b' } ∧
      b'.code.program = (b.slots depth (marks.map (Mark.splicing c.api))).map (fun e =>
        e.1.mapTargets (Splicing.entry b.code.arena.size (marks.map (Mark.splicing c.api)))) ∧
      ∀ e ∈ b.slots depth (marks.map (Mark.splicing c.api)),
        e.2 ≤ b'.maxStack.toNat ∨ 0xFFFF < e.2 ∧ b'.maxStack = 0xFFFF := by
  have hwf := hwoven.wellFormed (Module.loaded_of_loadWith hm).wellFormed
  obtain ⟨hb, hpoints⟩ := ready_of_mem hwf ha b hbody
  exact stack_suffices hbody hb.code hpoints hdepth h

/-- A method that declares eight slots declares ten with its three probes, and none of its instructions needs more. -/
theorem method_stack_cut : ∃ (m : Module) (t : Logged Unit) (a a' : Method) (b b' : MethodBody) (marks : List Mark)
    (s' : Logged Session), Module.loadWith cutImage (some cutSymbols) ⟨(), #[]⟩ = .ok m t ∧ a ∈ m.methods ∧
    a.body = some b ∧ b.maxStack = 8 ∧
    Weave.method cutContext "<Module>" a ⟨cutSession, #[]⟩ = .ok (a', marks.map Mark.probe) s' ∧ marks.length = 3 ∧
    a'.body = some b' ∧ b'.maxStack = 10 ∧
    ∀ e ∈ b.slots (fun _ => 8) (marks.map (Mark.splicing cutContext.api)), e.2 ≤ 10 := by
  obtain ⟨m, t, hloaded, hsome, hmethods⟩ : ∃ (m : Module) (t : Logged Unit),
      (Module.loadWith cutImage (some cutSymbols)).run ⟨(), #[]⟩ = .ok m t ∧ m.methods ≠ [] ∧
        ∀ a ∈ m.methods, (a.body.map MethodBody.maxStack) = some 8 ∧
          ∃ out s', Weave.method cutContext "<Module>" a ⟨cutSession, #[]⟩ = .ok out s' ∧ out.2.length = 3 ∧
            (out.1.body.map MethodBody.maxStack) = some 10 := by
    decide +kernel
  obtain ⟨a, ha⟩ := List.exists_mem_of_ne_nil _ hsome
  obtain ⟨hstack, ⟨a', placed⟩, s', hmethod, hthree, hstack'⟩ := hmethods a ha
  obtain ⟨b, hb, hdeclared⟩ := Option.map_eq_some_iff.mp hstack
  have hdepth : ∀ id ∈ b.code.ids, (fun _ : InstrId => 8) id ≤ b.maxStack.toNat := fun _ _ =>
    Nat.le_of_eq (congrArg UInt16.toNat hdeclared).symm
  obtain ⟨marks, b', rfl, -, rfl, -, hslots⟩ := method_stack hloaded (.inl rfl) ha hb hdepth hmethod
  have hten : b'.maxStack = 10 := Option.some.inj hstack'
  rw [List.length_map] at hthree
  refine ⟨m, t, a, _, b, b', marks, s', hloaded, ha, hb, hdeclared, hmethod, hthree, rfl, hten, fun e he => ?_⟩
  rcases hslots e he with hle | ⟨-, hlimit⟩
  · rw [hten] at hle
    exact hle
  · rw [hten] at hlimit
    exact absurd hlimit (by decide)

/-- A module with a method of one instruction, which declares as many slots as it can. -/
def deepImage : List UInt8 :=
  [0x43, 0x49, 0x4C, 0x4D, 1, 0, 0, 0, 1, 0x61, 0, 0, 0, 1, 0, 0, 0, 0, 0, 8, 0x3C, 0x4D, 0x6F, 0x64, 0x75, 0x6C, 0x65,
    0x3E, 1, 0x16, 0, 0, 0, 1, 0x66, 0, 1, 13, 0x03, 0x30, 0xFF, 0xFF, 1, 0, 0, 0, 0, 0, 0, 0, 0x2A, 0]

/-- Where all slots that can be declared are in use, a probe needs more. -/
theorem method_stack_exceeded : ∃ (m : Module) (t : Logged Unit) (a a' : Method) (b b' : MethodBody) (marks : List Mark)
    (s' : Logged Session), Module.loadWith deepImage (some cutSymbols) ⟨(), #[]⟩ = .ok m t ∧ a ∈ m.methods ∧
    a.body = some b ∧ b.maxStack = 0xFFFF ∧
    Weave.method cutContext "<Module>" a ⟨cutSession, #[]⟩ = .ok (a', marks.map Mark.probe) s' ∧ marks.length = 1 ∧
    a'.body = some b' ∧ b'.code.program.length = 4 ∧
    ∃ e ∈ b.slots (fun _ => 0xFFFF) (marks.map (Mark.splicing cutContext.api)), b'.maxStack.toNat < e.2 := by
  obtain ⟨m, t, hloaded, hsome, hmethods⟩ : ∃ (m : Module) (t : Logged Unit),
      (Module.loadWith deepImage (some cutSymbols)).run ⟨(), #[]⟩ = .ok m t ∧ m.methods ≠ [] ∧
        ∀ a ∈ m.methods, (a.body.map MethodBody.maxStack) = some 0xFFFF ∧
          ∃ out s', Weave.method cutContext "<Module>" a ⟨cutSession, #[]⟩ = .ok out s' ∧ out.2.length = 1 ∧
            (out.1.body.map fun b => (b.maxStack, b.code.program.length)) = some (0xFFFF, 4) := by
    decide +kernel
  obtain ⟨a, ha⟩ := List.exists_mem_of_ne_nil _ hsome
  obtain ⟨hstack, ⟨a', placed⟩, s', hmethod, hone, hstack'⟩ := hmethods a ha
  obtain ⟨b, hb, hdeclared⟩ := Option.map_eq_some_iff.mp hstack
  obtain ⟨b', hb', hpair⟩ := Option.map_eq_some_iff.mp hstack'
  obtain ⟨hdeclared', hlength⟩ := Prod.mk.inj hpair
  have hready := ready_of_mem (Offers.wellFormed (.inl rfl) (Module.loaded_of_loadWith hloaded).wellFormed) ha
  obtain ⟨hwf, hpoints⟩ := hready b hb
  obtain ⟨marks, _, rfl, -, -, rfl, hmarks⟩ := method_marks hb hwf.code hpoints hmethod
  rw [List.length_map] at hone
  obtain ⟨mark, rfl⟩ := List.length_eq_one_iff.mp hone
  have htarget := hpoints _ (hmarks mark List.mem_cons_self).1
  refine ⟨m, t, a, _, b, b', [mark], s', hloaded, ha, hb, hdeclared, hmethod, rfl, hb', hlength, _,
    MethodBody.mem_slots_call (p := mark.splicing cutContext.api) (List.mem_singleton_self _) htarget, ?_⟩
  rw [hdeclared']
  exact Nat.lt_add_of_pos_right Nat.two_pos

end Weave

end CilProbes
