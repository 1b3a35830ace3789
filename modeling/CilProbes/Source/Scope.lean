/-!
# The source scope

Which source documents are of interest: those below a root folder that are also listed. Paths are compared as they are
written, character by character.
-/

namespace CilProbes

structure SourceScope where
  root : String := ""
  /-- The listed documents, each once. -/
  files : List String := []
  deriving DecidableEq, Repr

namespace SourceScope

/-- The scope below a folder; a slash is put after the folder if it ends in neither slash nor backslash. -/
def below (root : String) (files : List String) : SourceScope where
  root :=
    match root.toList.getLast? with
    | some '/' | some '\\' => root
    | _ => root ++ "/"
  files := files.eraseDups

/-- The path of a document relative to the root, if the document is in scope. -/
def resolve (s : SourceScope) (document : String) : Option String :=
  match s.root.toList.isPrefixOf? document.toList with
  | some relative => if s.files.contains document then some (String.ofList relative) else none
  | none => none

def contains (s : SourceScope) (document : String) : Bool :=
  (s.resolve document).isSome

end SourceScope

end CilProbes
