import CilProbes.Bytes.Field

/-!
# Sequence points and their blob

A sequence point ties an offset of the code to a place in a source document. The points of a method are stored as a
blob of differences: first the document, then one record per point.

    offset    compressed; the difference to the last point; 0 after the first point introduces another document
    lines     compressed; last line less first line
    columns   compressed if `lines` is 0, else compressed with sign
    start     line and column; compressed for the first visible point, then signed differences to the last visible one

A point with `lines` and `columns` 0 is hidden and has no start. `PointBlob.encode` and `PointBlob.parse` walk the same
state, so a record is always read with the values it was written with.

The index of a document is a machine word. In the blob documents are counted from 1, and the last index of all wraps
around to 0 there.
-/

namespace CilProbes

/-- A number as a machine word. -/
instance coeWordOfNat : Coe Nat UInt64 where
  coe := UInt64.ofNat

instance coeNatOfWord : Coe UInt64 Nat where
  coe := UInt64.toNat

/-- A place in the source documents. -/
structure SourceSpan where
  /-- Index of the document, counted from 0. -/
  document : UInt64
  startLine : UInt32
  startColumn : UInt16
  endLine : UInt32
  endColumn : UInt16
  hidden : Bool
  deriving DecidableEq, Repr

/-- The line that stands for no line. -/
def hiddenLine : UInt32 := 0xFEEFEE

def SourceSpan.hiddenIn (document : UInt64) : SourceSpan where
  document
  startLine := hiddenLine
  startColumn := 0
  endLine := hiddenLine
  endColumn := 0
  hidden := true

/-- A source span at an offset of the code. -/
structure OffsetPoint where
  offset : UInt32
  span : SourceSpan
  deriving DecidableEq, Repr

namespace PointBlob

/-- What the points before have in common with the next one. -/
structure Context where
  document : UInt64
  /-- Offset of the last point, unless there is none yet. -/
  offset : Option UInt32 := none
  /-- Start of the last visible point, unless there is none yet. -/
  start : Option (UInt32 × UInt16) := none
  deriving DecidableEq

/-- The context after a point. -/
def Context.after (c : Context) (p : OffsetPoint) : Context where
  document := p.span.document
  offset := some p.offset
  start := if p.span.hidden then c.start else some (p.span.startLine, p.span.startColumn)

/-- A column as a word of 16 bits. -/
def column (value : Int) : Except Fault UInt16 :=
  if 0 ≤ value ∧ value < 0x10000 then .ok (UInt16.ofNat value.toNat) else .error (.malformed (.column value))

/-- A line as a word of 32 bits. -/
def line (value : Int) : Except Fault UInt32 :=
  if 0 ≤ value ∧ value < 0x100000000 then .ok (UInt32.ofNat value.toNat) else .error (.malformed (.line value))

/-- A difference as a signed word of 32 bits. -/
def delta (value : Int) : Except Fault Int :=
  if -0x80000000 ≤ value ∧ value < 0x80000000 then .ok value else .error (.malformed (.pointDelta value))

/-! ## Reading -/

/-- A document, counted from 1 in the blob. -/
def readDocument : Reader UInt64 := do
  match ← Reader.compressed with
  | 0 => Reader.fail .documentZero
  | n + 1 => return n

/-- The offset of the next point. -/
def Context.next (c : Context) (difference : Nat) : Except Fault UInt32 :=
  match c.offset with
  | none => .ok (UInt32.ofNat difference)
  | some last =>
    if last.toNat + difference < 0x100000000 then .ok (UInt32.ofNat (last.toNat + difference))
    else .error (.malformed .pointOverflow)

/-- The start of a visible point. -/
def Context.readStart (c : Context) : Reader (UInt32 × UInt16) := do
  match c.start with
  | none =>
    let first ← Reader.compressed
    let left ← Edit.ofExcept (column (← Reader.compressed))
    return (UInt32.ofNat first, left)
  | some (lastLine, lastColumn) =>
    let first ← Edit.ofExcept (line (lastLine.toNat + (← Reader.compressedInt)))
    let left ← Edit.ofExcept (column (lastColumn.toNat + (← Reader.compressedInt)))
    return (first, left)

/-- The span of a point after its offset. -/
def Context.readSpan (c : Context) : Reader SourceSpan := do
  let lines ← Reader.compressed
  let columns ← if lines = 0 then Int.ofNat <$> Reader.compressed else Reader.compressedInt
  if lines = 0 ∧ columns = 0 then return SourceSpan.hiddenIn c.document
  let (startLine, startColumn) ← c.readStart
  let endLine ← Edit.ofExcept (line (startLine.toNat + lines))
  let endColumn ← Edit.ofExcept (column (startColumn.toNat + columns))
  return { document := c.document, startLine, startColumn, endLine, endColumn, hidden := false }

/-- A record: another document, or a point. -/
def Context.readRecord (c : Context) : Reader (Context × Option OffsetPoint) := do
  let difference ← Reader.compressed
  if c.offset.isSome ∧ difference = 0 then
    return ({ c with document := ← readDocument }, none)
  let offset ← Edit.ofExcept (c.next difference)
  let point : OffsetPoint := { offset, span := ← c.readSpan }
  return (c.after point, some point)

/-- Reads records to the end onto `done`; a record has at least one byte, so `fuel` bounds their number. -/
def readOnto : (fuel : Nat) → Context → List OffsetPoint → Reader (List OffsetPoint)
  | 0, _, done => return done.reverse
  | fuel + 1, context, done => do
    if ← Reader.atEnd then return done.reverse
    match ← context.readRecord with
    | (context, some point) => readOnto fuel context (point :: done)
    | (context, none) => readOnto fuel context done

/-- The points of a blob; an empty blob has none. -/
def parse (blob : List UInt8) : Except Fault (List OffsetPoint) :=
  if blob.isEmpty then .ok []
  else
    Reader.run (do readOnto blob.length { document := ← readDocument } []) blob

/-! ## Writing -/

/-- A document record, where the document changes. -/
def Context.writeDocument (c : Context) (p : OffsetPoint) : Except Fault (List UInt8) :=
  if p.span.document = c.document then .ok []
  else return (← Compressed.encode 0) ++ (← Field.count (p.span.document + 1).toNat)

def Context.writeOffset (c : Context) (p : OffsetPoint) : Except Fault (List UInt8) :=
  match c.offset with
  | none => Compressed.encode p.offset.toNat
  | some last =>
    if last < p.offset then Compressed.encode (p.offset.toNat - last.toNat)
    else .error (.malformed (.pointOrder p.offset last))

/-- The extent of a visible point. -/
def writeExtent (p : OffsetPoint) : Except Fault (List UInt8) := do
  let s := p.span
  if s.endLine < s.startLine then throw (.malformed (.pointLines s.endLine s.startLine))
  let lines ← Compressed.encode (s.endLine.toNat - s.startLine.toNat)
  let columns : Int := Int.ofNat s.endColumn.toNat - Int.ofNat s.startColumn.toNat
  if s.endLine = s.startLine then
    if columns < 0 then throw (.malformed (.pointColumns s.endColumn s.startColumn))
    if columns = 0 then throw (.malformed (.pointEmpty p.offset))
    return lines ++ (← Compressed.encode columns.toNat)
  else
    return lines ++ (← Compressed.encodeInt (← delta columns))

/-- The start of a visible point. -/
def Context.writeStart (c : Context) (s : SourceSpan) : Except Fault (List UInt8) :=
  match c.start with
  | none => return (← Compressed.encode s.startLine.toNat) ++ (← Compressed.encode s.startColumn.toNat)
  | some (lastLine, lastColumn) => do
    let lines ← Compressed.encodeInt (← delta (Int.ofNat s.startLine.toNat - Int.ofNat lastLine.toNat))
    let columns ← Compressed.encodeInt (← delta (Int.ofNat s.startColumn.toNat - Int.ofNat lastColumn.toNat))
    return lines ++ columns

/-- The records of a point. -/
def Context.writePoint (c : Context) (p : OffsetPoint) : Except Fault (List UInt8) := do
  let document ← c.writeDocument p
  let offset ← c.writeOffset p
  if p.span.hidden then return document ++ offset ++ [0, 0]
  return document ++ offset ++ (← writeExtent p) ++ (← c.writeStart p.span)

def writeFrom (c : Context) : List OffsetPoint → Except Fault (List UInt8)
  | [] => return []
  | p :: ps => do return (← c.writePoint p) ++ (← writeFrom (c.after p) ps)

/-- The blob of some points. -/
def encode : List OffsetPoint → Except Fault (List UInt8)
  | [] => return []
  | points@(first :: _) => do
    return (← Field.count (first.span.document + 1).toNat) ++ (← writeFrom { document := first.span.document } points)

end PointBlob

end CilProbes
