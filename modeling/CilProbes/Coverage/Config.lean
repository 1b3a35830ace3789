import CilProbes.Data.JsonValue
import CilProbes.Disk.Path
import CilProbes.Source.Scope

/-!
# Settings

What to probe and how. Settings are exchanged as JSON records with the field names of `Config.toJson`; missing fields
take the defaults, and fields of other names do not matter (`Config.ofJson?`).
-/

namespace CilProbes

/-- Where the methods that probes call are declared. -/
structure ProbeNames where
  /-- Name of the module that declares them. -/
  scope : String := "CilCover.HitServices"
  typeName : String := "CilCover.HitServices.HitService"
  /-- Records a hit, given the path of the hits file and the number of the probe. -/
  hitMethod : String := "Hit"
  /-- Prepares recording, given the path of the hits file. -/
  initMethod : String := "Init"
  deriving DecidableEq, Repr

namespace ProbeNames

/-- Signature of the hit method: static, no result, a string and an integer. -/
def hitSignature : List UInt8 := [0x00, 0x02, 0x01, 0x0E, 0x08]

/-- Signature of the method that prepares recording: static, no result, a string. -/
def initSignature : List UInt8 := [0x00, 0x01, 0x01, 0x0E]

end ProbeNames

structure Config where
  hitsFile : String := ""
  scope : SourceScope := {}
  /-- A file to put beside each probed module: the one that declares the methods that probes call. -/
  companion : Option Path := none
  probe : ProbeNames := {}
  /-- What is put after the path of a file for the path of its backup. -/
  backupSuffix : String := ".uninstrumented"
  /-- Type name of the attribute that marks a probed module. -/
  markerAttribute : String := "CilCover.InstrumentedAttribute"
  deriving DecidableEq, Repr

open JsonValue

/-! ## Reading -/

def SourceScope.ofJson? (j : JsonValue) : Option SourceScope := do
  let fields ← j.asRecord
  let root ← required fields "root" asText
  let files ← required fields "files" (asList asText)
  return { root, files := files.eraseDups }

def ProbeNames.ofJson? (j : JsonValue) : Option ProbeNames := do
  let fields ← j.asRecord
  let defaults : ProbeNames := {}
  let scope ← optional fields "scope" asText defaults.scope
  let typeName ← optional fields "typeName" asText defaults.typeName
  let hitMethod ← optional fields "hitMethod" asText defaults.hitMethod
  let initMethod ← optional fields "initMethod" asText defaults.initMethod
  return { scope, typeName, hitMethod, initMethod }

/-- A path, or null for none. -/
def companionOfJson? : JsonValue → Option (Option Path)
  | .null => some none
  | j => j.asText.map fun text => some ⟨text⟩

def Config.ofJson? (j : JsonValue) : Option Config := do
  let fields ← j.asRecord
  let defaults : Config := {}
  let hitsFile ← optional fields "hitsFile" asText defaults.hitsFile
  let scope ← optional fields "scope" SourceScope.ofJson? defaults.scope
  let companion ← optional fields "companion" companionOfJson? defaults.companion
  let probe ← optional fields "probe" ProbeNames.ofJson? defaults.probe
  let backupSuffix ← optional fields "backupSuffix" asText defaults.backupSuffix
  let markerAttribute ← optional fields "markerAttribute" asText defaults.markerAttribute
  return { hitsFile, scope, companion, probe, backupSuffix, markerAttribute }

/-! ## Writing -/

/-- The documents are listed in order of their text. -/
def SourceScope.toJson (s : SourceScope) : JsonValue :=
  .record [("root", .text s.root), ("files", .list ((s.files.mergeSort fun a b => a ≤ b).map JsonValue.text))]

def ProbeNames.toJson (p : ProbeNames) : JsonValue :=
  .record [("scope", .text p.scope), ("typeName", .text p.typeName), ("hitMethod", .text p.hitMethod),
    ("initMethod", .text p.initMethod)]

def Config.toJson (c : Config) : JsonValue :=
  .record [("hitsFile", .text c.hitsFile), ("scope", c.scope.toJson),
    ("companion", match c.companion with | some p => .text p.text | none => .null), ("probe", c.probe.toJson),
    ("backupSuffix", .text c.backupSuffix), ("markerAttribute", .text c.markerAttribute)]

end CilProbes
