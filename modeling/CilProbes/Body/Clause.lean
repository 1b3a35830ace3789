import CilProbes.Code.Encode

/-!
# Exception clauses

A clause guards a region of a method body and names its handler. In memory its boundaries are instruction handles
(`ExceptionClause`); on disk they are offsets and lengths (`ClauseRecord`). A region that reaches to the end of the body
has no instruction after it, so its end is `none`.
-/

namespace CilProbes

/-- What a clause does on an exception; a clause with none of these catches by type. -/
structure ClauseKind where
  filter : Bool := false
  finally_ : Bool := false
  fault : Bool := false
  deriving DecidableEq, Repr

namespace ClauseKind

/-- The flags of a clause; further bits are dropped. -/
def ofBits (bits : Nat) : ClauseKind where
  filter := bits.testBit 0
  finally_ := bits.testBit 1
  fault := bits.testBit 2

def bits (k : ClauseKind) : Nat :=
  k.filter.toNat + 2 * k.finally_.toNat + 4 * k.fault.toNat

/-- The clause catches exceptions of one type. -/
def isTyped (k : ClauseKind) : Bool :=
  !(k.filter || k.finally_ || k.fault)

end ClauseKind

structure ExceptionClause where
  kind : ClauseKind
  tryStart : InstrId
  tryEnd : Option InstrId
  handlerStart : InstrId
  handlerEnd : Option InstrId
  filterStart : Option InstrId
  classToken : Token
  deriving DecidableEq

namespace ExceptionClause

/-- The instructions that the clause refers to. -/
def references (c : ExceptionClause) : List InstrId :=
  [c.filterStart, some c.tryStart, c.tryEnd, some c.handlerStart, c.handlerEnd].filterMap id

/-- Applies `f` to every instruction that the clause refers to. -/
def mapReferences (f : InstrId → InstrId) (c : ExceptionClause) : ExceptionClause :=
  { c with
    tryStart := f c.tryStart
    tryEnd := c.tryEnd.map f
    handlerStart := f c.handlerStart
    handlerEnd := c.handlerEnd.map f
    filterStart := c.filterStart.map f }

end ExceptionClause

/-- A clause as stored; the last field is the offset of the filter of a filter clause, and the type otherwise. -/
structure ClauseRecord where
  kind : ClauseKind
  tryOffset : UInt32
  tryLength : UInt32
  handlerOffset : UInt32
  handlerLength : UInt32
  classOrFilter : UInt32
  deriving DecidableEq

namespace ClauseRecord

/-- The instruction at an offset. -/
def startOf (table : OffsetTable) (offset : UInt32) : Except Fault InstrId :=
  match table[offset]? with
  | some id => .ok id
  | none => .error (.branchTarget offset)

/-- The instruction after a range, unless the range reaches to the end of the code. -/
def endOf (table : OffsetTable) (codeSize : Nat) (offset length : UInt32) : Except Fault (Option InstrId) :=
  let stop := offset.toNat + length.toNat
  if wordLimit ≤ stop then .error (.malformed .clauseOverflow)
  else if stop = codeSize then .ok none
  else some <$> startOf table (UInt32.ofNat stop)

/-- The clause that a record stands for in a body. -/
def resolve (table : OffsetTable) (codeSize : Nat) (r : ClauseRecord) : Except Fault ExceptionClause := do
  let tryStart ← startOf table r.tryOffset
  let tryEnd ← endOf table codeSize r.tryOffset r.tryLength
  let handlerStart ← startOf table r.handlerOffset
  let handlerEnd ← endOf table codeSize r.handlerOffset r.handlerLength
  let filterStart ← if r.kind.filter then some <$> startOf table r.classOrFilter else pure none
  return {
    kind := r.kind, tryStart, tryEnd, handlerStart, handlerEnd, filterStart
    classToken := ⟨if r.kind.isTyped then r.classOrFilter else 0⟩ }

/-- The record has the small form. -/
def isSmall (r : ClauseRecord) : Bool :=
  r.tryOffset ≤ 0xFFFF && r.tryLength ≤ 0xFF && r.handlerOffset ≤ 0xFFFF && r.handlerLength ≤ 0xFF

/-- The record in 12 bytes. -/
def small (r : ClauseRecord) : List UInt8 :=
  Little.encode 2 r.kind.bits ++ Little.encode 2 r.tryOffset.toNat ++ Little.encode 1 r.tryLength.toNat ++
    Little.encode 2 r.handlerOffset.toNat ++ Little.encode 1 r.handlerLength.toNat ++ Field.uint32 r.classOrFilter

/-- The record in 24 bytes. -/
def fat (r : ClauseRecord) : List UInt8 :=
  Little.encode 4 r.kind.bits ++ Field.uint32 r.tryOffset ++ Field.uint32 r.tryLength ++
    Field.uint32 r.handlerOffset ++ Field.uint32 r.handlerLength ++ Field.uint32 r.classOrFilter

def smallSize : Nat := 12

def fatSize : Nat := 24

end ClauseRecord

namespace Reader

/-- A record of the small form. -/
def smallClause : Reader ClauseRecord := do
  let kind := ClauseKind.ofBits (← word 2)
  let tryOffset := UInt32.ofNat (← word 2)
  let tryLength := UInt32.ofNat (← word 1)
  let handlerOffset := UInt32.ofNat (← word 2)
  let handlerLength := UInt32.ofNat (← word 1)
  return { kind, tryOffset, tryLength, handlerOffset, handlerLength, classOrFilter := ← uint32 }

/-- A record of the fat form. -/
def fatClause : Reader ClauseRecord := do
  let kind := ClauseKind.ofBits (← word 4)
  let tryOffset ← uint32
  let tryLength ← uint32
  let handlerOffset ← uint32
  let handlerLength ← uint32
  return { kind, tryOffset, tryLength, handlerOffset, handlerLength, classOrFilter := ← uint32 }

end Reader

namespace ExceptionClause

/-- The offset that an instruction has in written code; with none given, the end of the code. -/
def offsetIn (code : EncodedCode) (id : Option InstrId) : Except Fault Nat :=
  match code.offsetOrEnd? id with
  | some offset => .ok offset
  | none => .error (.malformed .clauseOutside)

/-- The record of a clause for written code. -/
def toRecord (code : EncodedCode) (c : ExceptionClause) : Except Fault ClauseRecord := do
  let tryOffset ← offsetIn code (some c.tryStart)
  let tryEnd ← offsetIn code c.tryEnd
  let handlerOffset ← offsetIn code (some c.handlerStart)
  let handlerEnd ← offsetIn code c.handlerEnd
  if tryEnd < tryOffset ∨ handlerEnd < handlerOffset then throw (.malformed .clauseReversed)
  let classOrFilter ←
    match c.filterStart with
    | some filter =>
      if c.kind.filter then UInt32.ofNat <$> offsetIn code (some filter) else pure c.classToken.value
    | none => pure c.classToken.value
  return {
    kind := c.kind
    tryOffset := UInt32.ofNat tryOffset
    tryLength := UInt32.ofNat (tryEnd - tryOffset)
    handlerOffset := UInt32.ofNat handlerOffset
    handlerLength := UInt32.ofNat (handlerEnd - handlerOffset)
    classOrFilter }

end ExceptionClause

end CilProbes
