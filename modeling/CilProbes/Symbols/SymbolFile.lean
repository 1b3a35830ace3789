import CilProbes.Symbols.SequencePoint

/-!
# Symbol files

Debug information of a module: the paths of its source documents, and the sequence points of its methods.

    u32      magic number
    u16      version
    list of  document path (string)
    list of  method token (u32), sequence points (blob)

What follows the last record is not looked at.
-/

namespace CilProbes

/-- The sequence points of one method. -/
structure MethodRecord where
  token : Token
  points : List OffsetPoint
  deriving DecidableEq, Repr

structure SymbolFile where
  documents : List String
  methods : List MethodRecord
  deriving DecidableEq, Repr

namespace SymbolFile

def magic : UInt32 := 0x42445043

def version : UInt16 := 1

/-- The symbol file that belongs to a module file. -/
def pathFor (module : Path) : Path :=
  module.withExtension "pdb"

/-- A record; every point is in one of the `documents` documents of the file. -/
def readRecord (documents : Nat) : Reader MethodRecord := do
  let token : Token := ⟨← Reader.uint32⟩
  let points ← Edit.ofExcept (PointBlob.parse (← Reader.blob))
  match points.find? fun p => documents ≤ p.span.document.toNat with
  | some p => Reader.fail (.recordDocument token p.span.document)
  | none => return { token, points }

def reader : Reader SymbolFile := do
  let found ← Reader.uint32
  if found ≠ magic then Reader.fail (.symbolsMagic found)
  let found ← Reader.uint16
  if found ≠ version then Reader.fail (.symbolsVersion found)
  let documents ← Reader.list Reader.string
  let methods ← Reader.list (readRecord documents.length)
  return { documents, methods }

def parse (data : List UInt8) : Except Fault SymbolFile :=
  reader.run data

/-- The bytes of a record. -/
def recordBytes (r : MethodRecord) : Except Fault (List UInt8) := do
  return Field.uint32 r.token.value ++ (← Field.blob (← PointBlob.encode r.points))

def encode (s : SymbolFile) : Except Fault (List UInt8) := do
  let documents ← Field.count s.documents.length
  let methods ← Field.count s.methods.length
  let records ← s.methods.mapM recordBytes
  return Field.uint32 magic ++ Field.uint16 version ++ documents ++ s.documents.flatMap Field.string ++
    methods ++ records.flatten

end SymbolFile

end CilProbes
