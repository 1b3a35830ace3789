import CilProbes.Module.Basic
import CilProbes.Text.ShortestDecimal

/-!
# Modules that are the same

Two modules are the same if all their fields are, where floating-point operands count as the numbers they stand for: a
NaN differs from every number and from itself, and the two zeros are one number.
-/

namespace CilProbes

namespace BinaryFormat

/-- The bits stand for no number. -/
def isNaN (f : BinaryFormat) (bits : Nat) : Bool :=
  (bits >>> f.fraction) % (1 <<< f.exponent) == (1 <<< f.exponent) - 1 && bits % (1 <<< f.fraction) != 0

def isZero (f : BinaryFormat) (bits : Nat) : Bool :=
  bits % (1 <<< (f.fraction + f.exponent)) == 0

/-- The bits stand for the same number. -/
def sameNumber (f : BinaryFormat) (a b : Nat) : Bool :=
  if f.isNaN a || f.isNaN b then false else a == b || f.isZero a && f.isZero b

end BinaryFormat

/-- Relates two lists element by element. -/
def sameList {α : Type} (same : α → α → Bool) : List α → List α → Bool
  | [], [] => true
  | a :: as, b :: bs => same a b && sameList same as bs
  | _, _ => false

/-- Relates two optional values. -/
def sameOption {α : Type} (same : α → α → Bool) : Option α → Option α → Bool
  | none, none => true
  | some a, some b => same a b
  | _, _ => false

def Operand.same : Operand → Operand → Bool
  | .immediate (.float32 a), .immediate (.float32 b) => BinaryFormat.single.sameNumber a.toNat b.toNat
  | .immediate (.float64 a), .immediate (.float64 b) => BinaryFormat.double.sameNumber a.toNat b.toNat
  | a, b => a == b

def Instruction.same (a b : Instruction) : Bool :=
  a.opcode == b.opcode && a.offset == b.offset && a.operand.same b.operand

/-- Also instructions that are not in program order count. -/
def InstructionStream.same (a b : InstructionStream) : Bool :=
  a.order == b.order && sameList Instruction.same a.arena.toList b.arena.toList

def MethodBody.same (a b : MethodBody) : Bool :=
  a.maxStack == b.maxStack && a.initLocals == b.initLocals && a.localSignature == b.localSignature &&
    a.clauses == b.clauses && a.code.same b.code

def Method.same (a b : Method) : Bool :=
  a.name == b.name && a.flags == b.flags && a.implFlags == b.implFlags && a.signature == b.signature &&
    a.points == b.points && sameOption MethodBody.same a.body b.body

namespace TypeDef

mutual

def same : TypeDef → TypeDef → Bool
  | ⟨flags, space, name, methods, nested⟩, ⟨flags', space', name', methods', nested'⟩ =>
    flags == flags' && space == space' && name == name' && sameList Method.same methods methods' &&
      sameAll nested nested'

def sameAll : List TypeDef → List TypeDef → Bool
  | [], [] => true
  | a :: as, b :: bs => same a b && sameAll as bs
  | _, _ => false

end

end TypeDef

def Module.same (a b : Module) : Bool :=
  a.name == b.name && a.attributes == b.attributes && a.memberRefs == b.memberRefs &&
    a.userStrings == b.userStrings && a.documents == b.documents && TypeDef.sameAll a.types b.types

end CilProbes
