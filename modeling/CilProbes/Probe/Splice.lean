import CilProbes.Body.Format

/-!
# Splicing probes

A probe reports that execution reached an instruction. It is three instructions in front of it:

    ldstr   the hits file
    ldc.i4  the number of the probe
    call    the hit method

Every branch and every exception clause that referred to the instruction is redirected to the probe
(`MethodBody.redirect`), so the probe runs on each way to the instruction.
-/

namespace CilProbes

namespace Opcode

def loadString : Opcode := ⟨0, 0x72, ⟨"ldstr", .token, .objectModel, .sequential⟩, by decide +kernel⟩

def loadInt : Opcode := ⟨0, 0x20, ⟨"ldc.i4", .int32, .loadStore, .sequential⟩, by decide +kernel⟩

def call : Opcode := ⟨0, 0x28, ⟨"call", .token, .controlFlow, .call⟩, by decide +kernel⟩

def ret : Opcode := ⟨0, 0x2A, ⟨"ret", .none, .controlFlow, .return⟩, by decide +kernel⟩

end Opcode

/-- Pushes a user string. -/
def Instruction.loadString (string : Token) : Instruction where
  opcode := .loadString
  operand := .token string

def Instruction.loadInt (value : Int32) : Instruction where
  opcode := .loadInt
  operand := .immediate (.int32 value)

def Instruction.call (method : Token) : Instruction where
  opcode := .call
  operand := .token method

def Instruction.ret : Instruction where
  opcode := .ret
  operand := .none

/-- What probes refer to: the string with the path of the hits file, and the method that records a hit. -/
structure ProbeApi where
  hitsFile : Token
  hitMethod : Token
  deriving DecidableEq, Repr

/-- The instructions of a probe. -/
def ProbeApi.probe (api : ProbeApi) (id : UInt32) : List Instruction :=
  [.loadString api.hitsFile, .loadInt id.toInt32, .call api.hitMethod]

/-- Stack slots that a probe needs beyond those in use where it stands. -/
def probeDepth : UInt16 := 2

/-- Inserts instructions one after another. -/
def InstructionStream.insertAllAt (s : InstructionStream) (index : Nat) :
    List Instruction → Except Fault InstructionStream
  | [] => .ok s
  | i :: is => do insertAllAt (← s.insertAt index i) (index + 1) is

namespace MethodBody

/-- The references of clauses and branches to instructions, also of instructions not in program order. -/
def references (b : MethodBody) : List InstrId :=
  b.clauses.flatMap ExceptionClause.references ++ b.code.arena.toList.flatMap Instruction.targets

/-- Points every reference to `displaced` at `replacement`. -/
def redirect (b : MethodBody) (displaced replacement : InstrId) : MethodBody :=
  let point (id : InstrId) := if id = displaced then replacement else id
  { b with
    clauses := b.clauses.map (ExceptionClause.mapReferences point)
    code := b.code.map (Instruction.mapTargets point) }

/-- Puts a probe in front of `target`; gives the first instruction of the probe. -/
def splice (b : MethodBody) (target : InstrId) (api : ProbeApi) (id : UInt32) : Except Fault (InstrId × MethodBody) :=
  if 0x7FFFFFFF < id then .error (.probeIdTooLarge id)
  else
    match b.code.position? target with
    | none => .error (.malformed (.probeTarget target))
    | some index => do
      let entry := b.code.nextId
      let code ← b.code.insertAllAt index (api.probe id)
      return (entry, (b.withCode code).redirect target entry)

end MethodBody

end CilProbes
