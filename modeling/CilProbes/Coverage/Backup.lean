import CilProbes.Coverage.Session

/-!
# Backups

Before a module is changed, its file and its symbol file are copied. `Backup.restore` copies them back and removes the
copies; a file without a copy stays as it is.
-/

namespace CilProbes

/-- The files of a module and where their copies are kept. -/
structure Backup where
  file : Path
  copy : Path
  symbols : Path
  symbolsCopy : Path
  deriving DecidableEq, Repr

namespace Backup

/-- The backup of the module file at a path. -/
def of (p : Path) (suffix : String) : Backup :=
  let symbols := SymbolFile.pathFor p
  { file := p, copy := p.append suffix, symbols, symbolsCopy := symbols.append suffix }

/-- Copies both files. -/
def create (b : Backup) : Edit (Logged Session) Unit := do
  Session.copy b.file b.copy
  Session.copy b.symbols b.symbolsCopy

/-- Puts a copy back in place and removes it; tells whether there was one. -/
def restoreFile (file copy : Path) : Edit (Logged Session) Bool := do
  if ← Session.isFile copy then
    Session.copy copy file
    Session.remove copy
    return true
  else
    return false

/-- Restores both files; tells whether there was a copy of either. -/
def restore (b : Backup) : Edit (Logged Session) Bool := do
  let module ← restoreFile b.file b.copy
  let symbols ← restoreFile b.symbols b.symbolsCopy
  return module || symbols

end Backup

end CilProbes
