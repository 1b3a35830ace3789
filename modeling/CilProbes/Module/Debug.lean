import CilProbes.Module.Image

/-!
# Attaching debug information

The records of a symbol file are attached one after another, each to the method that its token names. A record is
dropped if there is no such method or the method has no body, and a point is dropped if no instruction starts at its
offset. A point in a document that the file lacks is a fault; the records before it stay attached.

Attaching changes no code, so the offsets of the instructions of a method are gathered once for all its records
(`DebugTarget`).
-/

namespace CilProbes

namespace Method

/-- The points of a record that some instruction starts at. -/
def anchor (table : OffsetTable) (points : List OffsetPoint) : List SequencePoint :=
  points.filterMap fun p => table[p.offset]?.map fun instruction => { instruction, span := p.span }

end Method

/-- A method that records are attached to, with its instructions by offset if it has a body. -/
structure DebugTarget where
  method : Method
  table : Option (Thunk OffsetTable)

namespace DebugTarget

def ofMethod (m : Method) : DebugTarget where
  method := m
  table := m.body.map fun b => Thunk.mk fun _ => b.code.offsetTable

/-- Puts points in place of those of the method. -/
def withPoints (t : DebugTarget) (points : List SequencePoint) : DebugTarget :=
  { t with method := { t.method with points } }

/-- Reports the points that no instruction starts at. -/
def reportLoose {σ : Type} (method : String) (table : OffsetTable) (points : List OffsetPoint) :
    Edit (Logged σ) Unit :=
  points.forM fun p => if table.contains p.offset then pure () else Edit.log (.pointWithoutInstruction p.offset method)

/-- The points that a record gives a method with the given instructions, in a file with `documents` documents. -/
def anchored {σ : Type} (documents : Nat) (method : String) (table : OffsetTable) (points : List OffsetPoint) :
    Edit (Logged σ) (List SequencePoint) := do
  let known := points.takeWhile fun p => p.span.document.toNat < documents
  reportLoose method table known
  match points.drop known.length with
  | p :: _ => throw (.malformed (.pointDocument method p.span.document))
  | [] => return Method.anchor table points

/-- Attaches a record of a symbol file with `documents` documents to the methods of a module. -/
def attachRecord (documents : Nat) (r : MethodRecord) : Edit (Logged (Array DebugTarget)) Unit := do
  match r.token.index? .methodDef with
  | none => Edit.log (.unknownMethod r.token)
  | some index =>
    match (← get).value[index]? with
    | none => Edit.log (.unknownMethod r.token)
    | some target =>
      match target.table with
      | none => Edit.log (.methodWithoutBody target.method.name)
      | some table =>
        let points ← anchored documents target.method.name table.get r.points
        modify fun s => { s with value := s.value.setIfInBounds index (target.withPoints points) }

end DebugTarget

namespace Module

/-- Performs an operation on the methods. -/
def onTargets {α : Type} (act : Edit (Logged (Array DebugTarget)) α) : Edit (Logged Module) α :=
  Edit.onPart (fun s => ⟨(s.value.methods.map DebugTarget.ofMethod).toArray, s.log⟩)
    (fun s t => ⟨s.value.withMethods (t.value.toList.map DebugTarget.method), t.log⟩) act

/-- Attaches a symbol file: the points of its records, and then its documents. -/
def attach (symbols : SymbolFile) : Edit (Logged Module) Unit := do
  onTargets (symbols.methods.forM (DebugTarget.attachRecord symbols.documents.length))
  modify fun s => { s with value := { s.value with documents := some symbols.documents } }

/-- Reads an image and the symbol file that came with it. -/
def loadWith {σ : Type} (image : List UInt8) (symbols : Option (List UInt8)) : Edit (Logged σ) Module := do
  let m ← load image
  match symbols with
  | none => return m
  | some data => return (← Edit.onOther m (attach (← Edit.ofExcept (SymbolFile.parse data)))).2

end Module

end CilProbes
