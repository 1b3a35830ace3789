import CilProbes.Coverage.Backup
import CilProbes.Data.JsonValue

/-!
# Reports

What a run did: the probes it placed, by source file; the backups it took; the companion files it put beside modules.
Reports are exchanged as JSON records (`Report.toJson`, `Report.ofJson?`), in which every field has to be there.

Source files are kept in the order of their names, and the probes of one file in the order in which they were placed.
-/

namespace CilProbes

/-- A probe with the statement that it reports. -/
structure PlacedProbe where
  id : UInt32
  /-- Path of the source document below the root of the scope. -/
  source : String
  startLine : UInt32
  endLine : UInt32
  startColumn : UInt16
  endColumn : UInt16
  /-- The listing line of the instruction that the probe stands in front of. -/
  instruction : String
  assembly : String
  typeName : String
  method : String
  deriving DecidableEq, Repr

structure Report where
  sourceRoot : String
  hitsFile : String
  files : List (String × List PlacedProbe) := []
  backups : List Backup := []
  companions : List Path := []
  deriving DecidableEq, Repr

namespace Report

/-- Puts `value` at `key` into a list in order of keys, after the values that are there. -/
def insertInto {α : Type} (key : String) (value : List α) : List (String × List α) → List (String × List α)
  | [] => [(key, value)]
  | entry :: entries =>
    if key = entry.1 then (key, entry.2 ++ value) :: entries
    else if key < entry.1 then (key, value) :: entry :: entries
    else entry :: insertInto key value entries

def addProbe (r : Report) (p : PlacedProbe) : Report :=
  { r with files := insertInto p.source [p] r.files }

/-- Adds a companion file, unless there is one with the same path. -/
def addCompanion (r : Report) (p : Path) : Report :=
  if r.companions.any (·.same p) then r else { r with companions := r.companions ++ [p] }

/-- All probes, in order of source files. -/
def probes (r : Report) : List PlacedProbe :=
  r.files.flatMap Prod.snd

/-- The probe with a number. -/
def probe? (r : Report) (id : UInt32) : Option PlacedProbe :=
  r.probes.find? fun p => p.id == id

end Report

open JsonValue

/-! ## Reading -/

def PlacedProbe.ofJson? (j : JsonValue) : Option PlacedProbe := do
  let fields ← j.asRecord
  let id ← required fields "id" (asWord 32)
  let source ← required fields "sourceRelativePath" asText
  let startLine ← required fields "startLine" (asWord 32)
  let endLine ← required fields "endLine" (asWord 32)
  let startColumn ← required fields "startColumn" (asWord 16)
  let endColumn ← required fields "endColumn" (asWord 16)
  let instruction ← required fields "instruction" asText
  let place ← required fields "method" asRecord
  let assembly ← required place "assembly" asText
  let typeName ← required place "class" asText
  let method ← required place "name" asText
  return {
    id := UInt32.ofNat id, source, startLine := UInt32.ofNat startLine, endLine := UInt32.ofNat endLine
    startColumn := UInt16.ofNat startColumn, endColumn := UInt16.ofNat endColumn, instruction, assembly, typeName
    method }

def Path.ofJson? (j : JsonValue) : Option Path :=
  j.asText.map Path.mk

def Backup.ofJson? (j : JsonValue) : Option Backup := do
  let fields ← j.asRecord
  let copy ← required fields "backupPath" Path.ofJson?
  let file ← required fields "originalPath" Path.ofJson?
  let symbolsCopy ← required fields "symbolsBackupPath" Path.ofJson?
  let symbols ← required fields "symbolsOriginalPath" Path.ofJson?
  return { file, copy, symbols, symbolsCopy }

/-- The probes by source file; of two entries for one file the later one counts. -/
def filesOfJson? (j : JsonValue) : Option (List (String × List PlacedProbe)) := do
  let fields ← j.asRecord
  let files ← fields.mapM fun field => (asList PlacedProbe.ofJson? field.2).map fun probes => (field.1, probes)
  return files.foldl (fun sorted file =>
    Report.insertInto file.1 file.2 (sorted.filter fun entry => entry.1 != file.1)) []

def Report.ofJson? (j : JsonValue) : Option Report := do
  let fields ← j.asRecord
  let sourceRoot ← required fields "sourceRoot" asText
  let hitsFile ← required fields "hitsFile" asText
  let files ← required fields "files" filesOfJson?
  let backups ← required fields "instrumentedAssemblies" (asList Backup.ofJson?)
  let companions ← required fields "extraAssemblies" (asList Path.ofJson?)
  return { sourceRoot, hitsFile, files, backups, companions }

/-! ## Writing -/

def PlacedProbe.toJson (p : PlacedProbe) : JsonValue :=
  .record [("id", .whole p.id.toNat), ("sourceRelativePath", .text p.source), ("startLine", .whole p.startLine.toNat),
    ("endLine", .whole p.endLine.toNat), ("startColumn", .whole p.startColumn.toNat),
    ("endColumn", .whole p.endColumn.toNat), ("instruction", .text p.instruction),
    ("method", .record [("assembly", .text p.assembly), ("class", .text p.typeName), ("name", .text p.method)])]

def Backup.toJson (b : Backup) : JsonValue :=
  .record [("backupPath", .text b.copy.text), ("originalPath", .text b.file.text),
    ("symbolsBackupPath", .text b.symbolsCopy.text), ("symbolsOriginalPath", .text b.symbols.text)]

def Report.toJson (r : Report) : JsonValue :=
  .record [("sourceRoot", .text r.sourceRoot), ("hitsFile", .text r.hitsFile),
    ("files", .record (r.files.map fun file => (file.1, .list (file.2.map PlacedProbe.toJson)))),
    ("instrumentedAssemblies", .list (r.backups.map Backup.toJson)),
    ("extraAssemblies", .list (r.companions.map fun p => .text p.text))]

end CilProbes
