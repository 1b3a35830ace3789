import CilProbes.Body.Basic
import CilProbes.Body.Flags

/-!
# The format of method bodies

A body has a header, its code and, if it has exception clauses, a section for them. The header is tiny (one byte with
the size of the code) or fat (12 bytes); the clauses of a section are small (12 bytes) or fat (24 bytes). Any of these
is read; the smallest that can hold the body is written.
-/

namespace CilProbes

namespace ClauseSection

/-- The records in the content of a section. -/
def records (isFat : Bool) (content : List UInt8) : Except Fault (List ClauseRecord) :=
  if isFat then Reader.run (Reader.times (content.length / ClauseRecord.fatSize) Reader.fatClause) content
  else Reader.run (Reader.times (content.length / ClauseRecord.smallSize) Reader.smallClause) content

/-- Size of a section, with its header of four bytes. -/
def size (isFat : Bool) (b1 b2 b3 : UInt8) : Nat :=
  if isFat then Little.decode [b1, b2, b3] else b1.toNat

/-- `n` up to the next multiple of four. -/
def aligned (n : Nat) : Nat :=
  (n + 3) / 4 * 4

/--
The records of a chain of sections. The chain ends at a section of another kind, at one that announces no other, and at
the end of the data.
-/
def chain (data : List UInt8) : Except Fault (List ClauseRecord) :=
  match data with
  | kind :: b1 :: b2 :: b3 :: content =>
    if kind &&& Flags.clauseSection = 0 then .ok []
    else
      let isFat := kind &&& Flags.fatSection != 0
      let size := size isFat b1 b2 b3
      let body := content.take (size - 4)
      if size < 4 ∨ body.length + 4 < size then .error .outOfBounds
      else
        match records isFat body with
        | .error fault => .error fault
        | .ok here =>
          if kind &&& Flags.nextSection = 0 then .ok here
          else (chain (content.drop (aligned size - 4))).map (here ++ ·)
  | _ => .ok []
  termination_by data.length
  decreasing_by simp only [List.length_drop, List.length_cons]; omega

/-- Size of a section with `n` records of the given size. -/
def sizeOf (recordSize n : Nat) : Nat :=
  4 + n * recordSize

/-- The section for some records. -/
def encode (records : List ClauseRecord) : Except Fault (List UInt8) :=
  let smallSize := sizeOf ClauseRecord.smallSize records.length
  let fatSize := sizeOf ClauseRecord.fatSize records.length
  if smallSize ≤ 0xFF ∧ records.all ClauseRecord.isSmall then
    .ok ([Flags.clauseSection, UInt8.ofNat smallSize, 0, 0] ++ records.flatMap ClauseRecord.small)
  else if 0xFFFFFF < fatSize then
    .error (.malformed .tooManyClauses)
  else
    .ok ((Flags.clauseSection ||| Flags.fatSection) :: Little.encode 3 fatSize ++ records.flatMap ClauseRecord.fat)

end ClauseSection

namespace MethodBody

/-- Size of a fat header. -/
def headerSize : Nat := 12

/-- The fields of a fat header: flags with the size of the header, stack depth, size of the code, local variables. -/
def readHeader : Reader (Nat × UInt16 × Nat × UInt32) := do
  let flags ← Reader.word 2
  let maxStack ← Reader.uint16
  let codeSize ← Reader.word 4
  let localSignature ← Reader.uint32
  return (flags, maxStack, codeSize, localSignature)

/-- Reads a body with a fat header. -/
def parseFat (data : List UInt8) : Except Fault MethodBody := do
  let (flags, maxStack, codeSize, localSignature) ← Reader.run readHeader data
  let size := flags / 0x1000 * 4
  let bytes := (data.drop size).take codeSize
  if size < headerSize ∨ data.length < size + codeSize then throw .outOfBounds
  let code ← InstructionStream.decode bytes
  let hasFlag (flag : UInt16) : Bool := UInt16.ofNat flags &&& flag != 0
  let records ←
    if hasFlag Flags.moreSections then ClauseSection.chain (data.drop (ClauseSection.aligned (size + codeSize)))
    else pure []
  let clauses ← records.mapM (ClauseRecord.resolve code.offsetTable codeSize)
  return { maxStack, initLocals := hasFlag Flags.initLocals, localSignature, code, clauses }

/-- Reads a body. What follows the code of a body with a tiny header is not looked at. -/
def parse (data : List UInt8) : Except Fault MethodBody :=
  match data with
  | [] => .error (.malformed .bodyEmpty)
  | first :: rest =>
    if first &&& 3 = Flags.tinyFormat.toUInt8 then
      let size := (first / 4).toNat
      if rest.length < size then .error .outOfBounds
      else (InstructionStream.decode (rest.take size)).map fun code => { maxStack := 8, code }
    else if first &&& 3 = Flags.fatFormat.toUInt8 then parseFat data
    else .error (.malformed (.bodyHeader first))

end MethodBody

/-- A written body with the offset of every instruction in its code. -/
structure EncodedBody where
  bytes : List UInt8
  starts : StartTable

namespace MethodBody

/-- The body has a tiny header when it is written with the given code and clauses. -/
def isTiny (b : MethodBody) (code : List UInt8) (records : List ClauseRecord) : Bool :=
  code.length < 64 && b.maxStack ≤ 8 && b.localSignature == 0 && !b.initLocals && records.isEmpty

/-- A fat header. -/
def header (b : MethodBody) (codeSize : Nat) (hasClauses : Bool) : List UInt8 :=
  let flags := Flags.fatFormat ||| (if b.initLocals then Flags.initLocals else 0) |||
    (if hasClauses then Flags.moreSections else 0)
  Field.uint16 (flags ||| 0x3000) ++ Field.uint16 b.maxStack ++ Little.encode 4 codeSize ++
    Field.uint32 b.localSignature

/-- Puts a body together from its written code. -/
def assemble (b : MethodBody) (code : EncodedCode) : Except Fault EncodedBody := do
  let records ← b.clauses.mapM (ExceptionClause.toRecord code)
  if b.isTiny code.code records then
    return ⟨(UInt8.ofNat (code.code.length * 4) ||| Flags.tinyFormat.toUInt8) :: code.code, code.starts⟩
  if wordLimit ≤ code.code.length then throw (.malformed .bodyTooLarge)
  let front := b.header code.code.length (!records.isEmpty) ++ code.code
  if records.isEmpty then return ⟨front, code.starts⟩
  return ⟨front ++ Field.padding 4 front.length ++ (← ClauseSection.encode records), code.starts⟩

/-- Writes the body. Branches that had to be widened stay so, also when writing fails. -/
def encode : Edit MethodBody EncodedBody := fun b =>
  match InstructionStream.encode b.code with
  | .error fault code => .error fault (b.withCode code)
  | .ok code stream =>
    match (b.withCode stream).assemble code with
    | .ok bytes => .ok bytes (b.withCode stream)
    | .error fault => .error fault (b.withCode stream)

end MethodBody

end CilProbes
