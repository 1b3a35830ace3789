import CilProbes.Code.Operand
import CilProbes.Disk.Path
import CilProbes.Text.Utf8

/-!
# Faults

Everything that can go wrong, by cause. `Malformation` lists what can be wrong with the content of a file or of a body;
`Fault` adds the other ways in which an operation fails. `Malformation.message` and `Fault.message` hold the wording.
`Diagnostic` is a report line as a user reads it, with the place in the program that raised it where there is one.

An operation that leaves its value alone when it fails is an `Except Fault`; one that may fail halfway is an
`Edit`, which also tells how far it came.
-/

namespace CilProbes

/-- What is wrong with the content of a file or of a method body. -/
inductive Malformation where
  | compressedInteger (first : UInt8)
  | sevenBitInteger (bits : Nat)
  | text (start stop : Nat) (fault : Utf8.Fault)
  | compressedRange (value : Nat)
  | blobTooLarge (size : Nat)
  | countTooLarge (count : Nat)
  | notInStream (id : InstrId)
  | branchOffset (offset : Nat) (target : Int)
  | instructionOffset (offset : Nat)
  | codeTooLarge
  | branchTarget (id : InstrId)
  | shortDisplacement (distance : Int)
  | displacement (distance : Int)
  | switchTooLarge
  | switchDisplacement (distance : Int)
  | bodyEmpty
  | bodyHeader (first : UInt8)
  | bodyTooLarge
  | clauseOverflow
  | clauseOutside
  | clauseReversed
  | tooManyClauses
  | documentZero
  | column (value : Int)
  | line (value : Int)
  | pointOverflow
  | pointOrder (offset previous : UInt32)
  | pointLines (stop start : UInt32)
  | pointColumns (stop start : UInt16)
  | pointEmpty (offset : UInt32)
  | pointDelta (delta : Int)
  | symbolsMagic (magic : UInt32)
  | symbolsVersion (version : UInt16)
  | recordDocument (method : Token) (index : UInt64)
  | imageMagic (magic : UInt32)
  | imageVersion (version : UInt16)
  | trailingBytes (count : Nat)
  | nesting (levels : Nat)
  | bodyMarker (marker : UInt8) (method : String)
  | pointDocument (method : String) (index : UInt64)
  | pointOutside (method : String)
  | noModuleType (module : String)
  | initializerBody (module : String)
  | probeTarget (id : InstrId)
  deriving DecidableEq, Repr

/-- An offset in code as it appears in messages. -/
def offsetLabel (offset : Nat) : String :=
  "IL_" ++ hex 4 offset

/-- Documents are counted from 1 in messages. -/
def Malformation.message : Malformation → String
  | .compressedInteger first => s!"Invalid compressed uint - {first}"
  | .sevenBitInteger bits => s!"7-bit encoded integer overflow: value exceeds u32 capacity after {bits} bits"
  | .text start stop fault => s!"Invalid UTF-8 string at offset {start}-{stop}: {fault.message}"
  | .compressedRange value => s!"Value {value} exceeds the compressed integer range"
  | .blobTooLarge size => s!"Blob of {size} bytes is too large"
  | .countTooLarge count => s!"Count {count} is too large"
  | .notInStream id => s!"Instruction {id.text} is not part of the stream"
  | .branchOffset offset target => s!"Branch at {offsetLabel offset} targets invalid offset {target}"
  | .instructionOffset offset => s!"Instruction offset {offset} is too large"
  | .codeTooLarge => "Method body exceeds the 4 GiB code limit"
  | .branchTarget id => s!"Branch target {id.text} is not part of the method body"
  | .shortDisplacement distance => s!"Short branch displacement {distance} out of range"
  | .displacement distance => s!"Branch displacement {distance} out of range"
  | .switchTooLarge => "Switch table too large"
  | .switchDisplacement distance => s!"Switch displacement {distance} out of range"
  | .bodyEmpty => "Provided data for body parsing is empty"
  | .bodyHeader first => s!"MethodHeader is neither FAT nor TINY - {first}"
  | .bodyTooLarge => "Method body code is too large"
  | .clauseOverflow => "Exception clause range overflows"
  | .clauseOutside => "Exception clause references an instruction outside the body"
  | .clauseReversed => "Exception clause ends before it starts"
  | .tooManyClauses => "Too many exception clauses"
  | .documentZero => "Sequence point document index 0 is invalid"
  | .column value => s!"Column {value} out of range"
  | .line value => s!"Line {value} out of range"
  | .pointOverflow => "IL offset overflows"
  | .pointOrder offset previous =>
    s!"Sequence point at {offsetLabel offset.toNat} does not follow {offsetLabel previous.toNat}"
  | .pointLines stop start => s!"Sequence point ends on line {stop} before it starts on line {start}"
  | .pointColumns stop start => s!"Single line sequence point ends at column {stop} before {start}"
  | .pointEmpty offset => s!"Empty visible sequence point at {offsetLabel offset.toNat}"
  | .pointDelta delta => s!"Sequence point delta {delta} out of range"
  | .symbolsMagic magic => s!"Invalid symbol file magic - 0x{hexUpper 8 magic.toNat}"
  | .symbolsVersion version => s!"Unsupported symbol file version {version}"
  | .recordDocument method index => s!"Method {method.text} references unknown document {index + 1}"
  | .imageMagic magic => s!"Invalid module image magic - 0x{hexUpper 8 magic.toNat}"
  | .imageVersion version => s!"Unsupported module image version {version}"
  | .trailingBytes count => s!"{count} trailing bytes after module image"
  | .nesting levels => s!"Type nesting exceeds {levels} levels"
  | .bodyMarker marker method => s!"Invalid body marker {marker} for method {method}"
  | .pointDocument method index => s!"Sequence point of {method} references unknown document {index + 1}"
  | .pointOutside method => s!"Sequence point of {method} references an instruction outside its body"
  | .noModuleType module => s!"Module {module} does not start with the <Module> type"
  | .initializerBody module => s!"Module initializer of {module} has no body"
  | .probeTarget id => s!"Probe target {id.text} is not part of the method body"

/-- Why a file operation fails. -/
inductive DiskFault where
  | notFound
  | isFolder
  | notFolder
  | invalidInput
  deriving DecidableEq, Repr

/-- Why an operation fails. -/
inductive Fault where
  | malformed (cause : Malformation)
  | outOfBounds
  | invalidOpcode (page code : UInt8)
  | invalidOperand (mnemonic : String) (expected : OperandKind)
  /-- No instruction starts at an offset that a branch or a clause refers to. -/
  | branchTarget (offset : UInt32)
  | alreadyInstrumented (path : Path)
  | disk (cause : DiskFault)
  | probeIdTooLarge (id : UInt32)
  | companionUnnamed (path : Path)
  deriving DecidableEq, Repr

instance : Coe Malformation Fault := ⟨Fault.malformed⟩

/-- A report line for a user; `file` and `line` tell where in the program it was raised. -/
inductive Diagnostic where
  | malformed (message file : String) (line : Nat)
  | outOfBounds (file : String) (line : Nat)
  | notSupported
  | empty
  | plain (text : String)
  | invalidOpcode (code : UInt16)
  | invalidOperand (mnemonic expected : String)
  | branchTarget (offset : UInt32)
  | tokenNotFound (token : Token)
  | alreadyInstrumented (path : String)
  deriving DecidableEq, Repr

def Diagnostic.text : Diagnostic → String
  | .malformed message file line => s!"Malformed - {file}:{line}: {message}"
  | .outOfBounds file line => s!"Out of Bound read would have occurred! - {file}:{line}"
  | .notSupported => "This file type is not supported"
  | .empty => "Provided input was empty"
  | .plain text => text
  | .invalidOpcode code => s!"Invalid opcode: {hexUpper 4 code.toNat}"
  | .invalidOperand mnemonic expected => s!"Invalid operand for '{mnemonic}', expected {expected}"
  | .branchTarget offset =>
    s!"Branch or handler target 0x{hexUpper 4 offset.toNat} is not an instruction boundary"
  | .tokenNotFound token => s!"Token {token.text} does not resolve to a row"
  | .alreadyInstrumented path => s!"Module '{path}' is already instrumented"

/-- The wording of a fault; a read out of bounds and a file fault are told by their kind alone. -/
def Fault.message? : Fault → Option String
  | .malformed cause => some cause.message
  | .outOfBounds => none
  | .invalidOpcode page code =>
    some (Diagnostic.invalidOpcode (UInt16.ofNat (page.toNat * 0x100 + code.toNat))).text
  | .invalidOperand mnemonic expected => some (Diagnostic.invalidOperand mnemonic expected.description).text
  | .branchTarget offset => some (Diagnostic.branchTarget offset).text
  | .alreadyInstrumented path => some (Diagnostic.alreadyInstrumented path.text).text
  | .disk _ => none
  | .probeIdTooLarge id => some s!"Probe id {id} exceeds the int32 range"
  | .companionUnnamed path => some s!"Companion path {path.text} has no file name"

/-- An operation on a value that may fail halfway: a failure comes with the value as far as it was changed. -/
abbrev Edit (σ : Type) := EStateM Fault σ

namespace Edit

variable {σ τ α : Type}

/-- Performs an operation on a part of a value; the part is put back also when the operation fails. -/
def onPart (get : σ → τ) (put : σ → τ → σ) (act : Edit τ α) : Edit σ α := fun s =>
  match act (get s) with
  | .ok a t => .ok a (put s t)
  | .error fault t => .error fault (put s t)

/-- Performs an operation on one element after another; a failure leaves the elements after it alone. -/
def each (act : Edit σ α) : Edit (List σ) (List α)
  | [] => .ok [] []
  | s :: ss =>
    match act s with
    | .error fault s => .error fault (s :: ss)
    | .ok a s =>
      match each act ss with
      | .ok as ss => .ok (a :: as) (s :: ss)
      | .error fault ss => .error fault (s :: ss)

/-- The outcome of an operation that leaves the value alone. -/
def ofExcept : Except Fault α → Edit σ α
  | .ok a => pure a
  | .error fault => throw fault

end Edit

end CilProbes
