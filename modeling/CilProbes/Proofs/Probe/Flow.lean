import CilProbes.Proofs.Probe.Written

/-!
# Control flow and regions

Where control may pass in a stream whose handles are places (`InstructionStream.Passes`), which instructions a clause
guards, handles and filters, and what it means that an instruction was carried over into other code (`Carried`).
-/

namespace CilProbes

namespace Instruction

/-- Control may pass on to the next instruction. -/
def fallsThrough (i : Instruction) : Bool :=
  match i.opcode.info.flow with
  | .sequential | .conditionalBranch | .call | .switch => true
  | .unconditionalBranch | .return | .throw | .endFinally | .leave => false

/-- The same instruction, but that a short branch may have become long. -/
structure Relaxed (i i' : Instruction) : Prop where
  opcode : i'.opcode = i.opcode ∨ i.IsShort ∧ i.opcode.longForm? = some i'.opcode
  operand : i'.operand = i.operand

/-- The same instruction with its targets replaced, but that a short branch may have become long. -/
def Carried (f : InstrId → InstrId) (i i' : Instruction) : Prop :=
  Relaxed (i.mapTargets f) i'

variable {i i' : Instruction} {f : InstrId → InstrId}

theorem relaxed_widen (i : Instruction) : Relaxed i i.widen := by
  unfold widen
  split
  · next hs =>
    obtain ⟨long, hlong, _⟩ := i.opcode.exists_longForm hs
    rw [hlong]
    exact ⟨.inr ⟨hs, hlong⟩, rfl⟩
  · exact ⟨.inl rfl, rfl⟩

theorem Relaxed.fallsThrough (h : Relaxed i i') : i'.fallsThrough = i.fallsThrough := by
  unfold Instruction.fallsThrough
  rcases h.opcode with hsame | ⟨hs, hlong⟩
  · rw [hsame]
  · obtain ⟨long, hlong', _, hflow⟩ := i.opcode.exists_longForm hs
    rw [hlong] at hlong'
    cases hlong'
    rw [hflow]

theorem Carried.targets (h : Carried f i i') : i'.targets = i.targets.map f := by
  rw [← targets_mapTargets]
  exact congrArg Operand.targets h.operand

theorem Carried.fallsThrough (h : Carried f i i') : i'.fallsThrough = i.fallsThrough := by
  have := Relaxed.fallsThrough h
  rw [mapTargets_eq] at this
  exact this

/-- Replacing the targets further. -/
theorem Carried.mapTargets (h : Carried f i i') (g : InstrId → InstrId) : Carried (g ∘ f) i (i'.mapTargets g) := by
  have hopcode := h.opcode
  have hoperand := h.operand
  unfold Carried
  rw [mapTargets_eq] at hopcode hoperand ⊢
  rw [mapTargets_eq]
  refine ⟨hopcode, ?_⟩
  dsimp only at hoperand ⊢
  rw [hoperand, Operand.mapTargets_mapTargets]

theorem Carried.congr (h : Carried f i i') {g : InstrId → InstrId} (hfg : ∀ t ∈ i.targets, f t = g t) :
    Carried g i i' := by
  unfold Carried
  rw [← mapTargets_congr hfg]
  exact h

/-- An instruction without targets, with its targets replaced. -/
theorem mapTargets_of_targets_eq_nil (h : i.targets = []) (f : InstrId → InstrId) :
    i.operand.mapTargets f = i.operand := by
  have hsame : i.operand.mapTargets f = i.operand.mapTargets fun id => id :=
    Operand.mapTargets_congr fun t ht => absurd (show t ∈ i.targets from ht) (by rw [h]; exact List.not_mem_nil)
  rw [hsame, Operand.mapTargets_id]

/-- The instructions of probes have no targets, and control passes on behind them. -/
theorem plain_of_mem_probe {ps : List Splicing} (h : i ∈ ps.flatMap Splicing.probe) :
    ¬ i.IsShort ∧ i.targets = [] ∧ i.fallsThrough = true := by
  obtain ⟨p, _, hi⟩ := List.mem_flatMap.mp h
  simp only [Splicing.probe, ProbeApi.probe, List.mem_cons, List.not_mem_nil, or_false] at hi
  rcases hi with rfl | rfl | rfl
  all_goals
    refine ⟨?_, rfl, rfl⟩
    intro hshort
    cases hshort

end Instruction

/-- Control may pass from the instruction at `p` to the place `q`. -/
def InstructionStream.Passes (s : InstructionStream) (p q : Nat) : Prop :=
  ∃ i, s.get? ⟨p⟩ = some i ∧ (i.fallsThrough = true ∧ q = p + 1 ∨ ⟨q⟩ ∈ i.targets)

namespace ExceptionClause

/-- The place lies in the region that is guarded. -/
def Guards (c : ExceptionClause) (p : Nat) : Prop :=
  c.tryStart.index ≤ p ∧ ∀ stop, c.tryEnd = some stop → p < stop.index

/-- The place lies in the handler. -/
def Handles (c : ExceptionClause) (p : Nat) : Prop :=
  c.handlerStart.index ≤ p ∧ ∀ stop, c.handlerEnd = some stop → p < stop.index

/-- The place lies in the filter, which reaches up to the handler. -/
def Filters (c : ExceptionClause) (p : Nat) : Prop :=
  ∃ start, c.filterStart = some start ∧ start.index ≤ p ∧ p < c.handlerStart.index

/-- A place in the regions of one clause is in the same of them as another place in those of another clause. -/
structure SameRegions (c : ExceptionClause) (p : Nat) (c' : ExceptionClause) (p' : Nat) : Prop where
  guards : c'.Guards p' ↔ c.Guards p
  handles : c'.Handles p' ↔ c.Handles p
  filters : c'.Filters p' ↔ c.Filters p

end ExceptionClause

end CilProbes
