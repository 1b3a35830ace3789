import CilProbes.Code.HandleTable
import CilProbes.Code.Stream
import CilProbes.Text.ShortestDecimal

/-!
# Listings

One line per instruction: its label, its mnemonic and its operand. Labels are offsets of the code that was decoded, so
an inserted instruction shares the label of the decoded one after it; there may be none (`IL_????`).
-/

namespace CilProbes

def Immediate.text : Immediate → String
  | .int8 v => toString v.toInt
  | .uint8 v => toString v.toNat
  | .uint16 v => toString v.toNat
  | .int32 v => toString v.toInt
  | .int64 v => toString v.toInt
  | .float32 bits => BinaryFormat.single.decimal bits.toNat
  | .float64 bits => BinaryFormat.double.decimal bits.toNat

/-- The operand with the blank in front of it, given the names of places in the code. -/
def Operand.text (label : InstrId → String) : Operand → String
  | .none => ""
  | .immediate v => " " ++ v.text
  | .token t => " " ++ t.text
  | .target t => " " ++ label t
  | .switch ts => " (" ++ ", ".intercalate (ts.map label) ++ ")"

/-- The line of an instruction, given the names of places in the code. -/
def Instruction.line (label : InstrId → String) (id : InstrId) (i : Instruction) : String :=
  label id ++ ": " ++ i.opcode.info.mnemonic ++ i.operand.text label

/-- The name of a place from which on the first decoded instruction has the given offset. -/
def placeLabel : Option UInt32 → String
  | some offset => offsetLabel offset.toNat
  | none => "IL_????"

namespace InstructionStream

/-- The name of a place in the code. -/
def label (s : InstructionStream) (id : InstrId) : String :=
  placeLabel (s.decodedOffset? id)

/-- The line of an instruction. -/
def describe (s : InstructionStream) (id : InstrId) : Except Fault String :=
  match s.get? id with
  | some i => .ok (i.line s.label id)
  | none => .error (.malformed (.notInStream id))

/-- The offsets that `decodedOffset?` gives, gathered from the end of the code. -/
def decodedOffsets (s : InstructionStream) : HandleTable UInt32 :=
  (s.order.foldr (fun id (table, next) =>
    match ((s.get? id).bind Instruction.offset).or next with
    | some offset => (table.set id offset, some offset)
    | none => (table, none)) (HandleTable.empty s.arena.size, none)).1

/-- The lines of all instructions. -/
def listing (s : InstructionStream) : List String :=
  let offsets := s.decodedOffsets
  s.entries.map fun entry => entry.2.line (fun id => placeLabel (offsets.get? id)) entry.1

end InstructionStream

end CilProbes
