import CilProbes.Module.Basic

/-!
# Module images

The file format of modules.

    u32      magic number
    u16 u16  major and minor version
    string   name
    list of  attribute type name (string)
    list of  member reference: scope, type, name (strings), signature (blob)
    list of  user string (string)
    list of  type: u32 flags, namespace, name (strings), list of methods, list of nested types
    method   u16 flags, u16 implementation flags, name (string), signature (blob), a byte that tells whether there is
             a body, the body (blob)

An image ends with its last type. Writing a module encodes its bodies anew, type by type behind the tables, and its
symbol file with the offsets that the instructions got there, so the two files always fit each other. The points of a
method are put in order of offset for that (`inOrder_perm`, `pairwise_inOrder`). Writing stops at the first number,
signature, body or point that cannot be written.
-/

namespace CilProbes

namespace Image

def magic : UInt32 := 0x4D4C4943

def majorVersion : UInt16 := 1

def minorVersion : UInt16 := 0

/-- How many types may lie around a type. -/
def maxNesting : Nat := 64

/-! ## Reading -/

def readMember : Reader MemberRef := do
  let scope ← Reader.string
  let typeName ← Reader.string
  let name ← Reader.string
  return { scope, typeName, name, signature := ← Reader.blob }

/-- The body of the method with the given name, if it has one. -/
def readBody (method : String) : Reader (Option MethodBody) := do
  match ← Reader.byte with
  | 0 => return none
  | 1 => return some (← Edit.ofExcept (MethodBody.parse (← Reader.blob)))
  | marker => Reader.fail (.bodyMarker marker method)

def readMethod : Reader Method := do
  let flags ← Reader.uint16
  let implFlags ← Reader.uint16
  let name ← Reader.string
  let signature ← Reader.blob
  return { name, flags, implFlags, signature, body := ← readBody name }

/-- A type in which types may lie `levels - 1` deep. -/
def readType : (levels : Nat) → Reader TypeDef
  | 0 => Reader.fail (.nesting maxNesting)
  | levels + 1 => do
    let flags ← Reader.uint32
    let space ← Reader.string
    let name ← Reader.string
    let methods ← Reader.list readMethod
    let nested ← Reader.list (readType levels)
    return { flags, space, name, methods, nested }

def reader : Reader Module := do
  let found ← Reader.uint32
  if found ≠ magic then Reader.fail (.imageMagic found)
  let major ← Reader.uint16
  let _minor ← Reader.uint16
  if major ≠ majorVersion then Reader.fail (.imageVersion major)
  let name ← Reader.string
  let attributes ← Reader.list Reader.string
  let memberRefs ← Reader.list readMember
  let userStrings ← Reader.list Reader.string
  let types ← Reader.list (readType (maxNesting + 1))
  let left ← Reader.remaining
  if left ≠ 0 then Reader.fail (.trailingBytes left)
  return { name, attributes, memberRefs, userStrings, types }

/-! ## Writing -/

/-- A written method, with its sequence points by the offsets in its written body. -/
structure MethodImage where
  bytes : List UInt8
  points : List OffsetPoint

def memberBytes (m : MemberRef) : Except Fault (List UInt8) := do
  return Field.string m.scope ++ Field.string m.typeName ++ Field.string m.name ++ (← Field.blob m.signature)

/-- The fields of a method in front of its body. -/
def methodHeader (m : Method) : Except Fault (List UInt8) := do
  return Field.uint16 m.flags ++ Field.uint16 m.implFlags ++ Field.string m.name ++ (← Field.blob m.signature)

/-- Puts a point in front of the first one that does not lie before it. -/
def insertPoint (p : OffsetPoint) : List OffsetPoint → List OffsetPoint
  | [] => [p]
  | q :: qs => if p.offset ≤ q.offset then p :: q :: qs else q :: insertPoint p qs

/-- The points in order of offset; those at one offset keep their order. -/
def inOrder (points : List OffsetPoint) : List OffsetPoint :=
  points.foldr insertPoint []

theorem insertPoint_perm (p : OffsetPoint) (ps : List OffsetPoint) : (insertPoint p ps).Perm (p :: ps) := by
  fun_induction insertPoint p ps with
  | case1 => rfl
  | case2 => rfl
  | case3 q qs _ ih => exact (ih.cons q).trans (List.Perm.swap q p qs).symm

theorem inOrder_perm (ps : List OffsetPoint) : (inOrder ps).Perm ps := by
  induction ps with
  | nil => rfl
  | cons p ps ih => exact (insertPoint_perm p _).trans (ih.cons p)

theorem pairwise_insertPoint (p : OffsetPoint) {ps : List OffsetPoint}
    (h : ps.Pairwise fun a b => a.offset ≤ b.offset) :
    (insertPoint p ps).Pairwise fun a b => a.offset ≤ b.offset := by
  fun_induction insertPoint p ps with
  | case1 => exact List.pairwise_singleton _ _
  | case2 q qs hpq =>
    refine List.pairwise_cons.mpr ⟨fun b hb => ?_, h⟩
    rcases List.mem_cons.mp hb with rfl | hb
    · exact hpq
    · exact UInt32.le_trans hpq ((List.pairwise_cons.mp h).1 b hb)
  | case3 q qs hpq ih =>
    obtain ⟨hq, hqs⟩ := List.pairwise_cons.mp h
    refine List.pairwise_cons.mpr ⟨fun b hb => ?_, ih hqs⟩
    rcases List.mem_cons.mp ((insertPoint_perm p qs).mem_iff.mp hb) with rfl | hb
    · exact UInt32.le_of_lt (UInt32.not_le.mp hpq)
    · exact hq b hb

theorem pairwise_inOrder (ps : List OffsetPoint) : (inOrder ps).Pairwise fun a b => a.offset ≤ b.offset := by
  induction ps with
  | nil => exact List.Pairwise.nil
  | cons p ps ih => exact pairwise_insertPoint p ih

/-- The points of a method by the offsets of its written body, in order of offset. -/
def offsetPoints (m : Method) (starts : StartTable) : Except Fault (List OffsetPoint) := do
  let points ← m.points.mapM fun p =>
    match starts.get? p.instruction with
    | some start => .ok { offset := UInt32.ofNat start, span := p.span }
    | none => .error (.malformed (.pointOutside m.name))
  return inOrder points

/-- What a method is in an image, given its written body. -/
def methodImage (m : Method) (header : List UInt8) (body : EncodedBody) : Except Fault MethodImage := do
  let blob ← Field.blob body.bytes
  return { bytes := header ++ 1 :: blob, points := ← offsetPoints m body.starts }

/-- Writes a method; its body changes as `MethodBody.encode` changes it. -/
def encodeMethod : Edit Method MethodImage := fun m =>
  match methodHeader m with
  | .error fault => .error fault m
  | .ok header =>
    match m.body with
    | none => .ok { bytes := header ++ [0], points := [] } m
    | some body =>
      match MethodBody.encode body with
      | .error fault body => .error fault { m with body := some body }
      | .ok encoded body =>
        let m := { m with body := some body }
        match methodImage m header encoded with
        | .ok image => .ok image m
        | .error fault => .error fault m

/-- What some types are in an image: their bytes, and their methods in the order of their rows. -/
structure TypesImage where
  bytes : List UInt8
  methods : List MethodImage

/-- Writes some methods behind their number. -/
def encodeMethods : Edit (List Method) TypesImage := do
  let count ← Edit.ofExcept (Field.count (← get).length)
  let methods ← Edit.each encodeMethod
  return { bytes := count ++ methods.flatMap MethodImage.bytes, methods }

mutual

/-- Writes a type: its fields, its methods, and then the types nested in it. -/
def encodeType : TypeDef → EStateM.Result Fault TypeDef TypesImage
  | ⟨flags, space, name, methods, nested⟩ =>
    match encodeMethods methods with
    | .error fault methods => .error fault ⟨flags, space, name, methods, nested⟩
    | .ok own methods =>
      match Field.count nested.length with
      | .error fault => .error fault ⟨flags, space, name, methods, nested⟩
      | .ok count =>
        match encodeTypes nested with
        | .error fault nested => .error fault ⟨flags, space, name, methods, nested⟩
        | .ok inner nested =>
          let header := Field.uint32 flags ++ Field.string space ++ Field.string name
          .ok { bytes := header ++ own.bytes ++ count ++ inner.bytes, methods := own.methods ++ inner.methods }
            ⟨flags, space, name, methods, nested⟩

/-- Writes types one after the other. -/
def encodeTypes : List TypeDef → EStateM.Result Fault (List TypeDef) TypesImage
  | [] => .ok { bytes := [], methods := [] } []
  | t :: ts =>
    match encodeType t with
    | .error fault t => .error fault (t :: ts)
    | .ok first t =>
      match encodeTypes ts with
      | .error fault ts => .error fault (t :: ts)
      | .ok others ts =>
        .ok { bytes := first.bytes ++ others.bytes, methods := first.methods ++ others.methods } (t :: ts)

end

/-- What stands in the image of a module in front of its types. -/
def tables (m : Module) : Except Fault (List UInt8) := do
  let attributeCount ← Field.count m.attributes.length
  let memberCount ← Field.count m.memberRefs.length
  let members ← m.memberRefs.mapM memberBytes
  let stringCount ← Field.count m.userStrings.length
  let typeCount ← Field.count m.types.length
  return Field.uint32 magic ++ Field.uint16 majorVersion ++ Field.uint16 minorVersion ++ Field.string m.name ++
    attributeCount ++ m.attributes.flatMap Field.string ++ memberCount ++ members.flatten ++
    stringCount ++ m.userStrings.flatMap Field.string ++ typeCount

/-- The records for the methods that have sequence points. -/
def records (methods : List MethodImage) : List MethodRecord :=
  (methods.mapIdx fun index image => (⟨.atIndex .methodDef index, image.points⟩ : MethodRecord)).filter
    fun r => !r.points.isEmpty

/-- The files of a module: its image, and its symbol file if it has documents. -/
structure Files where
  image : List UInt8
  symbols : Option (List UInt8)
  deriving DecidableEq

end Image

namespace Module

/-- Reads an image. -/
def parse (data : List UInt8) : Except Fault Module :=
  Image.reader.run data

/--
Writes the files of a module, first the tables and then type by type. Branches that had to be widened until then stay so
when writing fails.
-/
def encode : Edit Module Image.Files := do
  let tables ← Edit.ofExcept (Image.tables (← get))
  let types ← Edit.onPart Module.types (fun m types => { m with types }) Image.encodeTypes
  let symbols ← (← get).documents.mapM fun documents =>
    Edit.ofExcept (SymbolFile.encode { documents, methods := Image.records types.methods })
  return { image := tables ++ types.bytes, symbols }

/-- Reads an image and reports it. -/
def load {σ : Type} (data : List UInt8) : Edit (Logged σ) Module := do
  let m ← Edit.ofExcept (parse data)
  Edit.log (.parsed m.name m.types.length)
  return m

/-- Writes the files of a module and reports it. -/
def save : Edit (Logged Module) Image.Files := do
  let files ← Edit.quietly encode
  Edit.log (.serialized (← get).value.name files.image.length)
  return files

end Module

end CilProbes
