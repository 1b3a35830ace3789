import CilProbes.Code.Listing
import CilProbes.Coverage.Config
import CilProbes.Coverage.Report
import CilProbes.Module.Initializer

/-!
# Probing a module

`Weave.module` takes one module file from pristine to probed.

1. A backup of an earlier run is restored, so probes never pile up.
2. A module without symbol file, or without a sequence point in a document in scope, is left alone.
3. A module that carries the marker is refused.
4. The files are backed up, the marker is added, the companion is put beside the module, and the module initializer
   begins with a call that prepares recording.
5. Each method gets a probe in front of each statement in scope, and the files are written.

Within a method the points are taken document by document (`Weave.grouped`). Probing it stops for good at the first
point of a document out of scope, and at the first statement whose instruction is modified by the one before it.
-/

namespace CilProbes

/-- What became of a module. -/
inductive Outcome where
  | skipped (reason : SkipReason)
  | probed (backup : Backup) (companion : Option Path) (probes : List PlacedProbe)

namespace Weave

/-- What all methods of a module have in common. -/
structure Context where
  scope : SourceScope
  documents : Array String
  assembly : String
  api : ProbeApi

/-- The points by document, in the order in which the documents first occur. -/
def grouped (points : List SequencePoint) : List SequencePoint :=
  (points.map fun p => p.span.document).eraseDups.flatMap fun document =>
    points.filter fun p => p.span.document = document

/-- The instruction is modified by the one before it. -/
def isModified (b : MethodBody) (id : InstrId) : Bool :=
  match (b.code.previous? id).bind b.code.get? with
  | some i => i.isModifier
  | none => false

/-- The report of the probe with number `id` in front of the instruction described by `instruction`. -/
def Context.report (c : Context) (typeName method relative instruction : String) (id : UInt32) (s : SourceSpan) :
    PlacedProbe where
  id
  source := relative
  startLine := s.startLine
  endLine := s.endLine
  startColumn := s.startColumn
  endColumn := s.endColumn
  instruction
  assembly := c.assembly
  typeName
  method

/-- Places probes for points in their order; gives the body and the probes. -/
def points (c : Context) (typeName method : String) :
    List SequencePoint → MethodBody → Edit (Logged Session) (MethodBody × List PlacedProbe)
  | [], body => return (body, [])
  | p :: ps, body => do
    match c.documents[p.span.document.toNat]? with
    | none => throw (.malformed (.pointDocument method p.span.document))
    | some document =>
      match c.scope.resolve document with
      | none =>
        Edit.log (.stoppedOutOfScope typeName method document)
        return (body, [])
      | some relative =>
        match ← Session.statement? ⟨document⟩ p.span with
        | none => points c typeName method ps body
        | some _ =>
          if isModified body p.instruction then
            Edit.log (.stoppedAtModifier typeName method p.span.startLine)
            return (body, [])
          else
            let instruction ← Edit.ofExcept (body.code.describe p.instruction)
            let id ← Session.nextId
            let (_, body) ← Edit.ofExcept (body.splice p.instruction c.api id)
            let (body, placed) ← points c typeName method ps body
            return (body, c.report typeName method relative instruction id p.span :: placed)

/-- `a + b`, or the largest word if that is less. -/
def addSaturating (a b : UInt16) : UInt16 :=
  if a.toNat + b.toNat < 0x10000 then a + b else 0xFFFF

/-- Places the probes of a method; a probed body declares the stack that probes need. -/
def method (c : Context) (typeName : String) (m : Method) : Edit (Logged Session) (Method × List PlacedProbe) := do
  match m.body with
  | none => return (m, [])
  | some body =>
    let (body, placed) ← points c typeName m.name (grouped m.points) body
    let body := if placed.isEmpty then body else { body with maxStack := addSaturating body.maxStack probeDepth }
    return ({ m with body := some body }, placed)

/-- Places the probes of some methods of a type. -/
def methods (c : Context) (typeName : String) :
    List Method → Edit (Logged Session) (List Method × List PlacedProbe)
  | [] => return ([], [])
  | m :: ms => do
    let (m, here) ← method c typeName m
    let (ms, later) ← methods c typeName ms
    return (m :: ms, here ++ later)

mutual

/-- Places the probes of a type, those of the types nested in it first. -/
def type (c : Context) (typeName : String) : TypeDef → Edit (Logged Session) (TypeDef × List PlacedProbe)
  | ⟨flags, space, name, own, nested⟩ => do
    let (nested, inner) ← nestedTypes c typeName nested
    let (own, placed) ← methods c typeName own
    return (⟨flags, space, name, own, nested⟩, inner ++ placed)

/-- Places the probes of the types nested in a type of the given name. -/
def nestedTypes (c : Context) (outer : String) :
    List TypeDef → Edit (Logged Session) (List TypeDef × List PlacedProbe)
  | [] => return ([], [])
  | t :: ts => do
    let (t, here) ← type c (outer ++ "/" ++ t.fullName) t
    let (ts, later) ← nestedTypes c outer ts
    return (t :: ts, here ++ later)

end

/-- Places the probes of the outermost types. -/
def types (c : Context) : List TypeDef → Edit (Logged Session) (List TypeDef × List PlacedProbe)
  | [] => return ([], [])
  | t :: ts => do
    let (t, here) ← type c t.fullName t
    let (ts, later) ← types c ts
    return (t :: ts, here ++ later)

/-- Some sequence point of the module lies in a document in scope. -/
def hasSource (scope : SourceScope) (documents : Array String) (m : Module) : Bool :=
  m.methods.any fun method => method.points.any fun p =>
    match documents[p.span.document.toNat]? with
    | some document => scope.contains document
    | none => false

/-- Puts the companion beside a module, unless it is there already; gives its place there. -/
def deployCompanion (config : Config) (p : Path) : Edit (Logged Session) (Option Path) := do
  match config.companion with
  | none => return none
  | some companion =>
    match companion.fileName? with
    | none => throw (.companionUnnamed companion)
    | some name =>
      let target := p.withFileName name
      if !target.same companion then
        Session.copy companion target
        Edit.log (.copied companion target)
      return some target

/-- The member that a method of the settings names. -/
def member (names : ProbeNames) (name : String) (signature : List UInt8) : MemberRef where
  scope := names.scope
  typeName := names.typeName
  name
  signature

/-- Puts instructions in front of all others. -/
def prepend (b : MethodBody) (instructions : List Instruction) : Except Fault MethodBody := do
  return b.withCode (← b.code.insertAllAt 0 instructions)

/-- Lets the module initializer begin with a call that prepares recording. -/
def prepareRecording (config : Config) (m : Module) : Except Fault Module := do
  let (init, m) := m.importMember (member config.probe config.probe.initMethod ProbeNames.initSignature)
  let (hitsFile, m) := m.internString config.hitsFile
  let (index, m) ← m.ensureInitializer
  match m.methods[index]?.bind Method.body with
  | none => throw (.malformed (.initializerBody m.name))
  | some body =>
    let body ← prepend body [.loadString hitsFile, .call init]
    let body := { body with maxStack := if body.maxStack < 1 then 1 else body.maxStack }
    return m.withMethods (m.methods.modify index fun method => { method with body := some body })

/-- What probes of the module refer to. -/
def importApi (config : Config) (m : Module) : ProbeApi × Module :=
  let (hitsFile, m) := m.internString config.hitsFile
  let (hitMethod, m) := m.importMember (member config.probe config.probe.hitMethod ProbeNames.hitSignature)
  ({ hitsFile, hitMethod }, m)

def skip (p : Path) (reason : SkipReason) : Edit (Logged Session) Outcome := do
  Edit.log (.skipped p reason)
  return .skipped reason

/-- Probes a module that has source in scope and no marker. -/
def pristine (config : Config) (p : Path) (backup : Backup) (documents : Array String) (m : Module) :
    Edit (Logged Session) Outcome := do
  backup.create
  let companion ← deployCompanion config p
  let m ← Edit.ofExcept (prepareRecording config (m.addAttribute config.markerAttribute))
  let (api, m) := importApi config m
  let context : Context := { scope := config.scope, documents, assembly := p.stem?.getD m.name, api }
  let (types, placed) ← types context m.types
  Session.saveModule p { m with types }
  Edit.log (.instrumented p placed.length)
  return .probed backup companion placed

/-- Probes the module file at a path. -/
def module (config : Config) (p : Path) : Edit (Logged Session) Outcome := do
  let backup := Backup.of p config.backupSuffix
  if ← backup.restore then Edit.log (.restored p backup.copy)
  if !(← Session.isFile backup.symbols) then
    skip p .noSymbols
  else
    let m ← Session.loadModule p
    match m.documents with
    | none => skip p .noSymbols
    | some documents =>
      let documents := documents.toArray
      if !hasSource config.scope documents m then skip p .outOfScope
      else if m.hasAttribute config.markerAttribute then throw (.alreadyInstrumented p)
      else pristine config p backup documents m

end Weave

end CilProbes
