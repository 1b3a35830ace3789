import CilProbes.Token

/-!
# Operands

What follows an opcode. Branch operands refer to instructions by handle (`InstrId`) rather than by distance, so they
stay right while instructions are inserted around them. Floating-point immediates are kept as bits.
-/

namespace CilProbes

/-- Handle of an instruction: its index in the arena of its stream. -/
structure InstrId where
  index : Nat
  deriving DecidableEq, Repr, Inhabited

namespace InstrId

/-- The handle that stands for a branch target not yet looked up; no stream gives it out. -/
def unresolved : InstrId := ⟨0xFFFFFFFF⟩

/-- The handle as it appears in messages. -/
def text (id : InstrId) : String :=
  s!"InstrId({id.index})"

end InstrId

/-- How the operand of an opcode is encoded. -/
inductive OperandKind where
  | none
  | int8
  | uint8
  | uint16
  | int32
  | int64
  | float32
  | float64
  | token
  /-- A branch target at a signed distance of one byte. -/
  | shortTarget
  /-- A branch target at a signed distance of four bytes. -/
  | target
  /-- A counted table of branch targets. -/
  | switch
  deriving DecidableEq, Repr

namespace OperandKind

/-- Encoded size in bytes, for the kinds of one size. -/
def size? : OperandKind → Option Nat
  | .none => some 0
  | .int8 | .uint8 | .shortTarget => some 1
  | .uint16 => some 2
  | .int32 | .float32 | .token | .target => some 4
  | .int64 | .float64 => some 8
  | .switch => Option.none

/-- The kind as it appears in messages. -/
def description : OperandKind → String
  | .none => "no operand"
  | .int8 => "an int8 immediate"
  | .uint8 => "a uint8 immediate"
  | .uint16 => "a uint16 immediate"
  | .int32 => "an int32 immediate"
  | .int64 => "an int64 immediate"
  | .float32 => "a float32 immediate"
  | .float64 => "a float64 immediate"
  | .token => "a metadata token"
  | .shortTarget | .target => "a branch target"
  | .switch => "a switch table"

end OperandKind

/-- A constant in the code; floating-point numbers are their bits. -/
inductive Immediate where
  | int8 (value : Int8)
  | uint8 (value : UInt8)
  | uint16 (value : UInt16)
  | int32 (value : Int32)
  | int64 (value : Int64)
  | float32 (bits : UInt32)
  | float64 (bits : UInt64)
  deriving DecidableEq

inductive Operand where
  | none
  | immediate (value : Immediate)
  | token (token : Token)
  | target (target : InstrId)
  | switch (targets : List InstrId)
  deriving DecidableEq

namespace Operand

/-- The operand is one that an opcode of the given kind takes. -/
def fits : Operand → OperandKind → Bool
  | .none, .none => true
  | .immediate (.int8 _), .int8 => true
  | .immediate (.uint8 _), .uint8 => true
  | .immediate (.uint16 _), .uint16 => true
  | .immediate (.int32 _), .int32 => true
  | .immediate (.int64 _), .int64 => true
  | .immediate (.float32 _), .float32 => true
  | .immediate (.float64 _), .float64 => true
  | .token _, .token => true
  | .target _, .shortTarget => true
  | .target _, .target => true
  | .switch _, .switch => true
  | _, _ => false

/-- The instructions that a branch operand may jump to. -/
def targets : Operand → List InstrId
  | .target t => [t]
  | .switch ts => ts
  | _ => []

/-- Applies `f` to every branch target. -/
def mapTargets (f : InstrId → InstrId) : Operand → Operand
  | .target t => .target (f t)
  | .switch ts => .switch (ts.map f)
  | other => other

end Operand

end CilProbes
