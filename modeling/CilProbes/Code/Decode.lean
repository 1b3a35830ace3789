import CilProbes.Bytes.Field
import CilProbes.Code.Stream
import Std.Data.TreeMap

/-!
# Reading code

Decoding has two passes. `Reader.instruction` reads one instruction; its branch targets are still offsets of the code.
`InstructionStream.decode` reads a whole body so and then looks up the instruction at each of those offsets: a target
between two instructions, or outside the code, is a fault.
-/

namespace CilProbes

/-- An instruction as read, with the offsets that its branch operand points at. -/
structure DecodedInstruction where
  instruction : Instruction
  targets : List UInt32

/-- Number of values of a 32-bit word. -/
def wordLimit : Nat := 0x100000000

namespace Reader

/-- An operand of the given kind, with the distances that stand in place of its targets. -/
def operand : OperandKind → Reader (Operand × List Int)
  | .none => return (.none, [])
  | .int8 => return (.immediate (.int8 (← int8)), [])
  | .uint8 => return (.immediate (.uint8 (← byte)), [])
  | .uint16 => return (.immediate (.uint16 (← uint16)), [])
  | .int32 => return (.immediate (.int32 (← int32)), [])
  | .int64 => return (.immediate (.int64 (← int64)), [])
  | .float32 => return (.immediate (.float32 (← uint32)), [])
  | .float64 => return (.immediate (.float64 (← uint64)), [])
  | .token => return (.token ⟨← uint32⟩, [])
  | .shortTarget => return (.target .unresolved, [(← int8).toInt])
  | .target => return (.target .unresolved, [(← int32).toInt])
  | .switch => do
    let count ← word 4
    let distances ← times count (Int32.toInt <$> int32)
    return (.switch (List.replicate count .unresolved), distances)

/-- The offset at a distance from the end of an instruction. -/
def target (offset next : Nat) (distance : Int) : Except Fault UInt32 :=
  let place := Int.ofNat next + distance
  if 0 ≤ place ∧ place < wordLimit then .ok (UInt32.ofNat place.toNat)
  else .error (.malformed (.branchOffset offset place))

def instruction : Reader DecodedInstruction := do
  let offset ← pos
  let first ← byte
  let (page, code) ←
    if first = OpcodeTable.extendedPage then (fun code => (first, code)) <$> byte else pure (0, first)
  match Opcode.find? page code with
  | none => throw (.invalidOpcode page code)
  | some opcode =>
    let (operand, distances) ← operand opcode.info.operand
    let next ← pos
    let targets ← Edit.ofExcept (distances.mapM (target offset next))
    if wordLimit ≤ offset then fail (.instructionOffset offset)
    return { instruction := { opcode, operand, offset := some (UInt32.ofNat offset) }, targets }

/-- Reads instructions to the end onto `done`; an instruction has at least one byte, so `fuel` bounds their number. -/
def instructionsOnto : (fuel : Nat) → Array DecodedInstruction → Reader (Array DecodedInstruction)
  | 0, done => fun c => .ok done c
  | fuel + 1, done => fun c =>
    if c.rest.isEmpty then .ok done c
    else
      match instruction c with
      | .ok i c => instructionsOnto fuel (done.push i) c
      | .error fault c => .error fault c

/-- All instructions up to the end. -/
def instructions : Reader (Array DecodedInstruction) := fun c =>
  instructionsOnto c.remaining #[] c

end Reader

/-- Which instruction starts at an offset. -/
abbrev OffsetTable := Std.TreeMap UInt32 InstrId

namespace InstructionStream

/-- The instructions by the offset at which they were decoded; of two at one offset the later one counts. -/
def offsetTable (s : InstructionStream) : OffsetTable :=
  s.entries.foldl (fun table entry =>
    match entry.2.offset with
    | some offset => table.insert offset entry.1
    | none => table) ∅

/-- The instructions at some offsets. -/
def lookupAll (table : OffsetTable) (offsets : List UInt32) : Except Fault (List InstrId) :=
  offsets.mapM fun offset =>
    match table[offset]? with
    | some id => .ok id
    | none => .error (.branchTarget offset)

/-- The instruction with its targets looked up. -/
def resolve (table : OffsetTable) (d : DecodedInstruction) : Except Fault Instruction :=
  match d.instruction.operand with
  | .target _ => do
    match ← lookupAll table d.targets with
    | [id] => return { d.instruction with operand := .target id }
    | _ => return d.instruction
  | .switch _ => do
    let ids ← lookupAll table d.targets
    return { d.instruction with operand := .switch ids }
  | _ => .ok d.instruction

/-- The stream of given instructions, in their order. -/
def ofArray (instructions : Array Instruction) : InstructionStream where
  arena := instructions
  order := Array.ofFn fun i : Fin instructions.size => ⟨i.val⟩

/-- Reads the code of a whole body. -/
def decode (code : List UInt8) : Except Fault InstructionStream := do
  let decoded ← Reader.run Reader.instructions code
  let table := (ofArray (decoded.map DecodedInstruction.instruction)).offsetTable
  return ofArray (← decoded.mapM (resolve table))

end InstructionStream

end CilProbes
