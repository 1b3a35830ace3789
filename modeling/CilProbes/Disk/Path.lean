/-!
# File paths

A path is its text. Its components are the pieces between `/`; empty pieces and `.` pieces do not count, except that a
leading `/` (`Anchor.root`) and a leading `.` (`Anchor.here`) are components of their own. Two paths are the same if
their components are; the text is what is printed and what file operations walk.

Main operations: the file name with its stem (`fileName?`, `stem?`), `withExtension`, `withFileName`.
-/

namespace CilProbes

structure Path where
  text : String
  deriving DecidableEq, Repr, Inhabited

namespace Path

/-- The parts of `cs` between slashes, at least one. -/
def split : List Char → List (List Char)
  | [] => [[]]
  | c :: cs =>
    if c = '/' then [] :: split cs
    else
      match split cs with
      | part :: parts => (c :: part) :: parts
      | [] => [[c]]

/-- Joins parts by slashes. -/
def join (parts : List (List Char)) : List Char :=
  ['/'].intercalate parts

/-- What a path starts from. -/
inductive Anchor where
  | root
  | here
  | bare
  deriving DecidableEq, Repr

/-- A path cut into its anchor and the parts between slashes after it. -/
structure Parts where
  anchor : Anchor
  body : List (List Char)

/-- The part is no component. -/
def isVoid (part : List Char) : Bool :=
  part == [] || part == ['.']

def parts (p : Path) : Parts :=
  match split p.text.toList with
  | [] => ⟨.bare, []⟩
  | first :: rest =>
    if first = [] ∧ rest ≠ [] then ⟨.root, rest⟩
    else if first = ['.'] then ⟨.here, rest⟩
    else ⟨.bare, first :: rest⟩

namespace Parts

/-- The text of the parts. -/
def chars (p : Parts) : List Char :=
  match p.anchor with
  | .root => '/' :: join p.body
  | .here => join (['.'] :: p.body)
  | .bare => join p.body

/-- The parts without the void ones at the end. -/
def trimmed (p : Parts) : Parts :=
  { p with body := (p.body.reverse.dropWhile isVoid).reverse }

/-- The parts up to the last component. -/
def parent (p : Parts) : Parts :=
  Parts.trimmed { p with body := p.trimmed.body.dropLast }

end Parts

/-- The anchor and the components: what two paths have in common when they are the same. -/
def components (p : Path) : Anchor × List (List Char) :=
  (p.parts.anchor, p.parts.body.filter fun part => !isVoid part)

/-- The two paths have the same components. -/
def same (p q : Path) : Bool :=
  p.components == q.components

/-- The last component, unless it is `..`, `.` or the root. -/
def fileName? (p : Path) : Option (List Char) :=
  match p.parts.trimmed.body.getLast? with
  | some name => if name = ['.', '.'] then none else some name
  | none => none

/-- A file name up to its last dot; all of it if no dot stands after the first character. -/
def stemOf (name : List Char) : List Char :=
  let cut := (name.reverse.dropWhile (· != '.')).drop 1 |>.reverse
  if cut.isEmpty then name else cut

/-- The file name without its extension. -/
def stem? (p : Path) : Option String :=
  p.fileName?.map fun name => String.ofList (stemOf name)

/-- What follows the stem of a file name and the dot after it. -/
def extensionOf (name : List Char) : List Char :=
  name.drop ((stemOf name).length + 1)

/-- The path with the text of its extension cut off; the dot in front of that stays. -/
def clipped (p : Path) : Path :=
  match p.fileName? with
  | none => p
  | some name => ⟨String.ofList (p.text.toList.take (p.text.toList.length - (extensionOf name).length))⟩

/-- The text up to the stem of the file name. -/
def upToStem (p : Path) (name : List Char) : List Char :=
  let upToName := p.parts.trimmed.chars
  upToName.take (upToName.length - (name.length - (stemOf name).length))

/--
Puts `extension` in place of what follows the stem. The old extension goes first, and then a path without a file name
stays as it is: `..a` is cut to `..`.
-/
def withExtension (p : Path) (extension : String) : Path :=
  match p.clipped.fileName? with
  | none => p.clipped
  | some name => ⟨String.ofList (p.clipped.upToStem name) ++ "." ++ extension⟩

/-- The directory text `dir` followed by `name`, with a slash between them where one is needed. -/
def child (dir : List Char) (name : List Char) : List Char :=
  match dir.getLast? with
  | some c => if c = '/' then dir ++ name else dir ++ '/' :: name
  | none => name

/-- Puts `name` in place of the file name; a path without one is taken for a directory. -/
def withFileName (p : Path) (name : List Char) : Path :=
  let dir := if p.fileName?.isSome then p.parts.parent.chars else p.text.toList
  ⟨String.ofList (child dir name)⟩

/-- The path with `suffix` at the end of its text. -/
def append (p : Path) (suffix : String) : Path :=
  ⟨p.text ++ suffix⟩

end Path

end CilProbes
