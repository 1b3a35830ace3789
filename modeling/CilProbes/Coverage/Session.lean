import CilProbes.Disk.Basic
import CilProbes.Module.Debug
import CilProbes.Source.Span

/-!
# Sessions

What the work on modules reads and changes: the disk, the source files read so far, and the next number for a probe.
Source files are read once; two paths with the same components are one file to the cache.
-/

namespace CilProbes

/-- Numbers for probes, counted from 1. -/
structure ProbeIds where
  next : UInt32 := 1
  deriving DecidableEq, Repr

namespace ProbeIds

/-- The next number; the last one of 32 bits is given out again and again. -/
def take (ids : ProbeIds) : UInt32 × ProbeIds :=
  (ids.next, ⟨if ids.next = 0xFFFFFFFF then ids.next else ids.next + 1⟩)

/-- How many numbers were given out. -/
def taken (ids : ProbeIds) : UInt32 :=
  ids.next - 1

/-- Takes `n` numbers. -/
def takeMany : Nat → ProbeIds → List UInt32 × ProbeIds
  | 0, ids => ([], ids)
  | n + 1, ids =>
    let (id, ids) := ids.take
    let (more, ids) := takeMany n ids
    (id :: more, ids)

end ProbeIds

/-- Source files by the components of their paths. -/
abbrev SourceCache := List ((Path.Anchor × List (List Char)) × Array (List Char))

structure Session where
  disk : Disk
  sources : SourceCache := []
  ids : ProbeIds := {}

namespace Session

/-! ## Files -/

/-- An answer of the disk as it is. -/
def ask {α : Type} (f : Disk → Except DiskFault α) : Edit (Logged Session) α := do
  match f (← get).value.disk with
  | .ok a => return a
  | .error cause => throw (.disk cause)

/-- A change of the disk. -/
def change (f : Disk → Except DiskFault Disk) : Edit (Logged Session) Unit := do
  let disk ← ask f
  modify fun s => { s with value := { s.value with disk } }

def isFile (p : Path) : Edit (Logged Session) Bool :=
  return (← get).value.disk.isFile p

/-- The content of a file. -/
def read (p : Path) : Edit (Logged Session) (List UInt8) :=
  ask (Disk.read · p)

def write (p : Path) (content : List UInt8) : Edit (Logged Session) Unit :=
  change (Disk.write · p content)

def copy (source target : Path) : Edit (Logged Session) Unit :=
  change (Disk.copy · source target)

def remove (p : Path) : Edit (Logged Session) Unit :=
  change (Disk.remove · p)

/-! ## Probes and sources -/

/-- The next number for a probe. -/
def nextId : Edit (Logged Session) UInt32 :=
  modifyGet fun s =>
    let (id, ids) := s.value.ids.take
    (id, { s with value := { s.value with ids } })

/-- The lines of a source file. -/
def sourceLines (p : Path) : Edit (Logged Session) (Array (List Char)) := do
  match (← get).value.sources.lookup p.components with
  | some lines => return lines
  | none =>
    let lines := SourceText.ofBytes (← read p)
    Edit.log (.sourceRead p lines.size)
    modify fun s => { s with value := { s.value with sources := (p.components, lines) :: s.value.sources } }
    return lines

/-- The text of a span in a source file, if it is a statement to probe. -/
def statement? (p : Path) (span : SourceSpan) : Edit (Logged Session) (Option (List Char)) := do
  return (SourceText.extract (← sourceLines p) span).filter SourceText.isStatement

/-! ## Module files -/

/-- The module of a file, with its debug information if there is a symbol file. -/
def loadModule (p : Path) : Edit (Logged Session) Module := do
  let m ← Module.load (← read p)
  let symbols := SymbolFile.pathFor p
  if ← isFile symbols then
    let parsed ← Edit.ofExcept (SymbolFile.parse (← read symbols))
    return (← Edit.onOther m (Module.attach parsed)).2
  else
    return m

/-- Writes a module, and its symbol file if it has debug information. -/
def saveModule (p : Path) (m : Module) : Edit (Logged Session) Unit := do
  let (files, _) ← Edit.onOther m Module.save
  write p files.image
  match files.symbols with
  | some symbols => write (SymbolFile.pathFor p) symbols
  | none => return

/-- The symbol file at a path. -/
def loadSymbols (p : Path) : Edit (Logged Session) SymbolFile := do
  Edit.ofExcept (SymbolFile.parse (← read p))

end Session

end CilProbes
