import CilProbes.Code.Opcode
import CilProbes.Fault

/-!
# Instructions

An opcode with its operand, and the offset at which it was decoded, if it was. `Instruction.make` admits only operands
that fit the opcode; the fields may be set to anything afterwards.

A short branch (`IsShort`) can be widened; a widened branch is short no more (`not_isShort_widen`).
-/

namespace CilProbes

structure Instruction where
  opcode : Opcode
  operand : Operand
  /-- Where the instruction started in the code it was decoded from. -/
  offset : Option UInt32 := none
  deriving DecidableEq

namespace Instruction

/-- The instruction with the given opcode and an operand that fits it. -/
def make (page code : UInt8) (operand : Operand) : Except Fault Instruction :=
  match Opcode.find? page code with
  | none => .error (.invalidOpcode page code)
  | some opcode =>
    if operand.fits opcode.info.operand then
      .ok { opcode, operand }
    else
      .error (.invalidOperand opcode.info.mnemonic opcode.info.operand)

/-- The kind of operand that the opcode takes. -/
def kind (i : Instruction) : OperandKind :=
  i.opcode.info.operand

/-- The instruction modifies the one after it and must not be parted from it. -/
def isModifier (i : Instruction) : Bool :=
  i.opcode.info.category = .modifier

def isBranch (i : Instruction) : Bool :=
  match i.operand with
  | .target _ | .switch _ => true
  | _ => false

def targets (i : Instruction) : List InstrId :=
  i.operand.targets

/-- Applies `f` to every branch target. -/
def mapTargets (f : InstrId → InstrId) (i : Instruction) : Instruction :=
  if i.isBranch then { i with operand := i.operand.mapTargets f } else i

/-- Encoded size in bytes: a switch table as it is, any other operand by its kind. -/
def size (i : Instruction) : Nat :=
  i.opcode.size +
    match i.operand with
    | .switch targets => 4 + 4 * targets.length
    | _ => i.kind.size?.getD 0

/-- The instruction is a branch over a distance of one byte. -/
def IsShort (i : Instruction) : Prop :=
  i.kind = .shortTarget

instance : DecidablePred IsShort := fun i => inferInstanceAs (Decidable (i.kind = .shortTarget))

/-- The target of a short branch. -/
def shortTarget? (i : Instruction) : Option InstrId :=
  if i.IsShort then
    match i.operand with
    | .target t => some t
    | _ => none
  else none

/-- The long form of a short branch; any other instruction as it is. -/
def widen (i : Instruction) : Instruction :=
  if i.IsShort then
    match i.opcode.longForm? with
    | some long => { i with opcode := long }
    | none => i
  else i

theorem isShort_of_shortTarget? {i : Instruction} {t : InstrId} (h : i.shortTarget? = some t) : i.IsShort := by
  unfold shortTarget? at h
  split at h
  · assumption
  · cases h

theorem not_isShort_widen (i : Instruction) : ¬ i.widen.IsShort := by
  unfold widen
  split
  · next h =>
    obtain ⟨long, hl, ht, _⟩ := i.opcode.exists_longForm h
    simp [hl, IsShort, kind, ht]
  · assumption

end Instruction

end CilProbes
