import CilProbes.Disk.Path
import CilProbes.Fault

/-!
# The disk

Files and folders, as a value, and the folder that paths without a leading slash start from. A path is walked part by
part from the root or from that folder (`Disk.locate`), so a file has absolute and relative paths: every part but the
last has to be a folder, and so does the last one if a slash follows it. A folder without an entry is one of which
nothing is known but that it is there: the walk finds nothing in it.

Files are read (`read`), created or overwritten (`write`), copied (`copy`) and removed (`remove`). A copy empties its
target before it reads its source, so a file copied onto itself ends up empty.

Entries are seen by their locations (`Disk.get?`), and a change of one leaves all others alone (`Disk.get?_put_of_ne`,
`Disk.get?_delete_of_ne`).
-/

namespace CilProbes

/-- Where something lies: the names of the folders around it, from the root on, and its own. The root has none. -/
abbrev Location := List (List Char)

inductive DiskEntry where
  | file (content : List UInt8)
  | folder
  deriving DecidableEq, Repr

/-- The working folder of a disk that is set up file by file. -/
def Disk.home : Location :=
  [['h', 'o', 'm', 'e']]

structure Disk where
  /-- The folder that paths without a leading slash start from. -/
  working : Location := Disk.home
  /-- Each location at most once. -/
  entries : List (Location × DiskEntry) := [(Disk.home, .folder)]

/-- What a path leads to. -/
inductive Spot where
  | file (location : Location) (content : List UInt8)
  | folder
  /-- Nothing yet, in a folder that exists. -/
  | vacant (location : Location)
  | missing
  /-- A file stands where the path needs a folder. -/
  | blocked
  /-- The path is no path. -/
  | invalid
  deriving DecidableEq, Repr

namespace Disk

def get? (d : Disk) (l : Location) : Option DiskEntry :=
  d.entries.lookup l

/-- The content of the file at a location. -/
def file? (d : Disk) (l : Location) : Option (List UInt8) :=
  match d.get? l with
  | some (.file content) => some content
  | _ => none

/-- Puts an entry at a location, in place of what is there. -/
def put (d : Disk) (l : Location) (e : DiskEntry) : Disk where
  working := d.working
  entries := (l, e) :: d.entries.filter fun entry => entry.1 != l

/-- Takes away what is at a location. -/
def delete (d : Disk) (l : Location) : Disk where
  working := d.working
  entries := d.entries.filter fun entry => entry.1 != l

/-- Looking up a key among the entries whose keys pass a test. -/
theorem lookup_filter {α β : Type} [BEq α] [LawfulBEq α] (test : α → Bool) (k : α) (xs : List (α × β)) :
    (xs.filter fun x => test x.1).lookup k = if test k then xs.lookup k else none := by
  induction xs with
  | nil => exact (ite_self _).symm
  | cons x xs ih =>
    obtain ⟨a, b⟩ := x
    by_cases hk : k = a
    · subst hk
      cases ht : test k <;> simp [ht, ih]
    · have hne : (k == a) = false := beq_eq_false_iff_ne.mpr hk
      cases ht : test a <;> simp [List.lookup_cons, ht, hne, ih]

theorem get?_put (d : Disk) (l : Location) (e : DiskEntry) : (d.put l e).get? l = some e :=
  List.lookup_cons_self

theorem get?_delete (d : Disk) (l : Location) : (d.delete l).get? l = none := by
  unfold delete get?
  rw [lookup_filter (· != l), bne_self_eq_false]
  rfl

theorem get?_delete_of_ne (d : Disk) {k l : Location} (h : k ≠ l) : (d.delete l).get? k = d.get? k := by
  unfold delete get?
  rw [lookup_filter (· != l), if_pos (bne_iff_ne.mpr h)]

theorem get?_put_of_ne (d : Disk) {k l : Location} (e : DiskEntry) (h : k ≠ l) :
    (d.put l e).get? k = d.get? k := by
  have hne : (k == l) = false := beq_eq_false_iff_ne.mpr h
  unfold put
  show List.lookup k ((l, e) :: (d.delete l).entries) = _
  rw [List.lookup_cons, hne]
  exact d.get?_delete_of_ne h

/-- Walks the parts of a path from a folder; the folder around the root is the root. -/
def walk (d : Disk) : Location → List (List Char) → Spot
  | _, [] => .folder
  | here, part :: parts =>
    if Path.isVoid part then walk d here parts
    else if part = ['.', '.'] then walk d here.dropLast parts
    else if d.get? here = some .folder then
      let inner := here ++ [part]
      match d.get? inner with
      | some .folder => walk d inner parts
      | some (.file content) => if parts.isEmpty then .file inner content else .blocked
      | none => if parts.isEmpty then .vacant inner else .missing
    else .missing

/-- The folder that a path starts from. -/
def start (d : Disk) : Path.Anchor → Location
  | .root => []
  | .here | .bare => d.working

/-- What a path leads to. -/
def locate (d : Disk) (p : Path) : Spot :=
  if p.text.toList.contains '\x00' then .invalid
  else if p.text.isEmpty then .missing
  else d.walk (d.start p.parts.anchor) p.parts.body

def isFile (d : Disk) (p : Path) : Bool :=
  match d.locate p with
  | .file .. => true
  | _ => false

/-- The content of the file that a path leads to. -/
def read (d : Disk) (p : Path) : Except DiskFault (List UInt8) :=
  match d.locate p with
  | .file _ content => .ok content
  | .folder => .error .isFolder
  | .vacant _ | .missing => .error .notFound
  | .blocked => .error .notFolder
  | .invalid => .error .invalidInput

/-- The path without slashes at its end, and whether there were any. -/
def withoutSlash (p : Path) : Path × Bool :=
  let chars := p.text.toList.reverse.dropWhile (· == '/') |>.reverse
  if chars.isEmpty then (p, false) else (⟨String.ofList chars⟩, p.text.toList.getLast? == some '/')

/-- Where a file is created or overwritten for a path; one that ends in a slash asks for a folder. -/
def target (d : Disk) (p : Path) : Except DiskFault Location :=
  let (bare, slash) := withoutSlash p
  match d.locate bare with
  | .file l _ | .vacant l => if slash then .error .isFolder else .ok l
  | .folder => .error .isFolder
  | .missing => .error .notFound
  | .blocked => .error .notFolder
  | .invalid => .error .invalidInput

/-- Creates a file or overwrites it. -/
def write (d : Disk) (p : Path) (content : List UInt8) : Except DiskFault Disk := do
  return d.put (← d.target p) (.file content)

/-- Copies a file to where another path leads. -/
def copy (d : Disk) (source target : Path) : Except DiskFault Disk :=
  match d.locate source with
  | .file l content => do
    let t ← d.target target
    return d.put t (.file (if t = l then [] else content))
  | .folder => .error .invalidInput
  | .vacant _ | .missing => .error .notFound
  | .blocked => .error .notFolder
  | .invalid => .error .invalidInput

/-- Removes a file. -/
def remove (d : Disk) (p : Path) : Except DiskFault Disk :=
  match d.locate p with
  | .file l _ => .ok (d.delete l)
  | .folder => .error .isFolder
  | .vacant _ | .missing => .error .notFound
  | .blocked => .error .notFolder
  | .invalid => .error .invalidInput

/-! ## Setting up -/

/-- The location that a path has by its names alone, from the root or from the working folder of a new disk. -/
def locationOf (p : Path) : Location :=
  p.components.2.foldl (fun l part => if part = ['.', '.'] then l.dropLast else l ++ [part])
    (if p.parts.anchor = .root then [] else home)

/-- Adds a folder, and those around it, where there are none. -/
def addFolder (d : Disk) (l : Location) : Disk :=
  (List.range l.length).foldl (fun d n =>
    let outer := l.take (n + 1)
    if (d.get? outer).isSome then d else d.put outer .folder) d

/-- Adds a file in folders that are added as needed. -/
def addFile (d : Disk) (p : Path) (content : List UInt8) : Disk :=
  let l := locationOf p
  (d.addFolder l.dropLast).put l (.file content)

/-- The names that lead to a location: from the working folder if it lies there, else from the root. -/
def namesOf (d : Disk) (l : Location) : List (List Char) :=
  if d.working <+: l then l.drop d.working.length else [] :: l

/-- The files that differ between two disks, with their new content, or none if they are gone. -/
def changes (before after : Disk) : List (List (List Char) × Option (List UInt8)) :=
  let gone := before.entries.filterMap fun entry =>
    if (before.file? entry.1).isSome && (after.file? entry.1).isNone then some (before.namesOf entry.1, none) else none
  let new := after.entries.filterMap fun entry =>
    match after.file? entry.1 with
    | some content =>
      if before.file? entry.1 == some content then none else some (after.namesOf entry.1, some content)
    | none => none
  gone ++ new

end Disk

end CilProbes
