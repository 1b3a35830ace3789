import CilProbes.Fault

/-!
# The log

What the library reports while it works, as data; `LogEvent.line` holds the wording. An operation on a `Logged` value
keeps what it logged also when it fails.
-/

namespace CilProbes

/-- Why a module is left as it is. -/
inductive SkipReason where
  | noSymbols
  | outOfScope
  deriving DecidableEq, Repr

def SkipReason.text : SkipReason → String
  | .noSymbols => "no debug symbols"
  | .outOfScope => "no source file in scope"

inductive LogEvent where
  | parsed (module : String) (types : Nat)
  | serialized (module : String) (bytes : Nat)
  | unknownMethod (token : Token)
  | methodWithoutBody (method : String)
  | pointWithoutInstruction (offset : UInt32) (method : String)
  | sourceRead (path : Path) (lines : Nat)
  | restored (path backup : Path)
  | skipped (path : Path) (reason : SkipReason)
  | repeated (path : Path)
  | copied (source target : Path)
  | stoppedOutOfScope (type method document : String)
  | stoppedAtModifier (type method : String) (line : UInt32)
  | instrumented (path : Path) (probes : Nat)
  | finished (changed modules : Nat) (probes : UInt32) (files : Nat)
  deriving DecidableEq, Repr

/-- The severity and the wording of an event. -/
def LogEvent.line : LogEvent → String
  | .parsed module types => s!"DEBUG Parsed module {module} with {types} top-level types"
  | .serialized module bytes => s!"DEBUG Serialized module {module} ({bytes} bytes)"
  | .unknownMethod token => s!"WARN Dropping debug information of unknown method {token.text}"
  | .methodWithoutBody method => s!"WARN Dropping debug information of method {method} without body"
  | .pointWithoutInstruction offset method =>
    s!"WARN Dropping sequence point at {offsetLabel offset.toNat} of {method}: no instruction starts there"
  | .sourceRead path lines => s!"DEBUG Read {lines} lines of {path.text}"
  | .restored path backup => s!"DEBUG Restored {path.text} from {backup.text}"
  | .skipped path reason => s!"DEBUG Skipping {path.text}: {reason.text}"
  | .repeated path => s!"DEBUG Skipping {path.text}: listed twice"
  | .copied source target => s!"DEBUG Copied {source.text} to {target.text}"
  | .stoppedOutOfScope type method document =>
    s!"DEBUG Stopping at {type}::{method}: {document} is out of scope"
  | .stoppedAtModifier type method line =>
    s!"DEBUG Stopping at {type}::{method}: statement at line {line} follows a prefix"
  | .instrumented path probes => s!"INFO Instrumented {path.text} with {probes} probes"
  | .finished changed modules probes files =>
    s!"INFO Instrumented {changed} of {modules} modules, {probes} probes in {files} source files"

/-- Events, the first one first. -/
abbrev Log := Array LogEvent

/-- A value with the log of the work on it. -/
structure Logged (σ : Type) where
  value : σ
  log : Log

namespace Edit

variable {σ α : Type}

/-- Reports an event. -/
def log (event : LogEvent) : Edit (Logged σ) Unit :=
  modify fun s => { s with log := s.log.push event }

/-- Performs an operation on another value, which is lost if the operation fails. -/
def onOther {τ : Type} (value : τ) (act : Edit (Logged τ) α) : Edit (Logged σ) (α × τ) := fun s =>
  match act ⟨value, s.log⟩ with
  | .ok a t => .ok (a, t.value) { s with log := t.log }
  | .error fault t => .error fault { s with log := t.log }

/-- Performs an operation on the value, which logs nothing. -/
def quietly (act : Edit σ α) : Edit (Logged σ) α :=
  onPart Logged.value (fun s value => { s with value }) act

end Edit

end CilProbes
