import CilProbes.Coverage.Weave

/-!
# Runs

A run probes a list of module files in their order, with one sequence of probe numbers. A path that is listed again is
passed over. Numbers and source files are fresh in every run; what a failed run has changed on the disk stays.
-/

namespace CilProbes

namespace Report

/-- Adds what became of a module. -/
def addOutcome (r : Report) : Outcome → Report
  | .skipped _ => r
  | .probed backup companion probes =>
    let r := { r with backups := r.backups ++ [backup] }
    let r := match companion with | some p => r.addCompanion p | none => r
    probes.foldl addProbe r

end Report

namespace Run

/-- Probes the modules that are not among the paths in `seen`. -/
def modules (config : Config) : List Path → (seen : List Path) → Report → Edit (Logged Session) Report
  | [], _, report => return report
  | p :: ps, seen, report => do
    if seen.any (·.same p) then
      Edit.log (.repeated p)
      modules config ps seen report
    else
      let outcome ← Weave.module config p
      modules config ps (p :: seen) (report.addOutcome outcome)

/-- A run in a session of its own. -/
def report (config : Config) (paths : List Path) : Edit (Logged Session) Report := do
  let start : Report := { sourceRoot := config.scope.root, hitsFile := config.hitsFile }
  let report ← modules config paths [] start
  let placed := (← get).value.ids.taken
  Edit.log (.finished report.backups.length paths.length placed report.files.length)
  return report

/-- A run on the disk of a session, which keeps its own numbers and source files. -/
def run (config : Config) (paths : List Path) : Edit (Logged Session) Report := fun s =>
  match report config paths ⟨{ disk := s.value.disk }, s.log⟩ with
  | .ok r t => .ok r ⟨{ s.value with disk := t.value.disk }, t.log⟩
  | .error fault t => .error fault ⟨{ s.value with disk := t.value.disk }, t.log⟩

end Run

end CilProbes
