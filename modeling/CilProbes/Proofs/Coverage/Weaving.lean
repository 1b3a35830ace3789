import CilProbes.Coverage.Run
import CilProbes.Proofs.Coverage.Backups

/-!
# What probing a module does to the files

Placing probes changes no file (`Weave.types_steps`), and probing a module only its files, their copies and the
companion beside them (`Weave.module_steps`).

Probing starts from the pristine files, if they are safe in a backup, and leaves them so (`Weave.module_meets`): if it
succeeds then what it wrote was made from the pristine files (`Weave.Rewrites`), and if it does not then the files are
pristine.

A run does this with the listed modules one after another (`Run.modules_cons_ok`).
-/

namespace CilProbes

namespace Weave

open Session (Changes Frame)

variable {c : Context} {config : Config} {p q : Path} {ps : List Path} {s s' : Logged Session}

/-! ## Placing probes -/

theorem points_steps (typeName method : String) (points : List SequencePoint) (body : MethodBody) :
    Edit.Steps (Changes ps) (Weave.points c typeName method points body) := by
  induction points generalizing body with
  | nil => exact Edit.steps_pure _
  | cons p points ih =>
    unfold Weave.points
    split
    · exact Edit.steps_throw _
    · split
      · exact ((Session.log_steps _).mono fun _ _ h => h.changes).bind fun _ => Edit.steps_pure _
      · refine ((Session.statement?_steps _ _).mono fun _ _ h => h.changes).bind fun found => ?_
        split
        · exact ih body
        · split
          · exact ((Session.log_steps _).mono fun _ _ h => h.changes).bind fun _ => Edit.steps_pure _
          · refine (Edit.steps_ofExcept _).bind fun _ => Session.nextId_steps.bind fun _ => ?_
            exact (Edit.steps_ofExcept _).bind fun _ => (ih _).bind fun _ => Edit.steps_pure _

theorem method_steps (typeName : String) (m : Method) : Edit.Steps (Changes ps) (method c typeName m) := by
  unfold method
  split
  · exact Edit.steps_pure _
  · exact (points_steps ..).bind fun _ => Edit.steps_pure _

theorem methods_steps (typeName : String) (ms : List Method) : Edit.Steps (Changes ps) (methods c typeName ms) := by
  induction ms with
  | nil => exact Edit.steps_pure _
  | cons m ms ih => exact (method_steps ..).bind fun _ => ih.bind fun _ => Edit.steps_pure _

mutual

theorem type_steps (typeName : String) : (t : TypeDef) → Edit.Steps (Changes ps) (type c typeName t)
  | ⟨_, _, _, own, nested⟩ => by
    unfold type
    exact (nestedTypes_steps typeName nested).bind fun _ => (methods_steps typeName own).bind fun _ => Edit.steps_pure _

theorem nestedTypes_steps (outer : String) : (ts : List TypeDef) → Edit.Steps (Changes ps) (nestedTypes c outer ts)
  | [] => by
    unfold nestedTypes
    exact Edit.steps_pure _
  | t :: ts => by
    unfold nestedTypes
    exact (type_steps _ t).bind fun _ => (nestedTypes_steps outer ts).bind fun _ => Edit.steps_pure _

end

theorem types_steps (ts : List TypeDef) : Edit.Steps (Changes ps) (types c ts) := by
  induction ts with
  | nil => exact Edit.steps_pure _
  | cons t ts ih => exact (type_steps ..).bind fun _ => ih.bind fun _ => Edit.steps_pure _

/-! ## The companion -/

/-- Where the companion is put for a module. -/
def companionPath? (config : Config) (p : Path) : Option Path :=
  config.companion.bind fun companion => companion.fileName?.map p.withFileName

/-- Where a copy of the companion is put for a module: nowhere if the companion is there already. -/
def companionCopy? (config : Config) (p : Path) : Option Path :=
  (companionPath? config p).filter fun q => !config.companion.any q.same

theorem companionCopy?_sub (h : q ∈ companionCopy? config p) : q ∈ companionPath? config p :=
  (Option.filter_eq_some_iff.mp h).1

theorem deployCompanion_steps (h : ∀ q ∈ companionCopy? config p, q ∈ ps) :
    Edit.Steps (Frame ps) (deployCompanion config p) := by
  unfold deployCompanion
  split
  · exact Edit.steps_pure _
  · next companion hcompanion =>
    split
    · exact Edit.steps_throw _
    · next name hname =>
      dsimp only
      split
      · next hother =>
        have htarget : p.withFileName name ∈ ps := by
          refine h _ ?_
          unfold companionCopy? companionPath?
          rw [hcompanion, Option.bind_some, hname, Option.map_some]
          exact Option.filter_eq_some_iff.mpr ⟨rfl, by simpa using hother⟩
        exact (Session.copy_steps htarget).bind fun _ => (Session.log_steps _).bind fun _ => Edit.steps_pure _
      · exact Edit.steps_pure _

/-! ## Modules -/

/-- The files of a module and of its backup, and the companion beside it. -/
def paths (config : Config) (p : Path) : List Path :=
  (Backup.of p config.backupSuffix).paths ++ (companionPath? config p).toList

/-- All files that probing a module may change. -/
def writes (config : Config) (p : Path) : List Path :=
  (Backup.of p config.backupSuffix).paths ++ (companionCopy? config p).toList

section Steps

variable (hbackup : (Backup.of p config.backupSuffix).paths ⊆ ps) (hcompanion : ∀ q ∈ companionCopy? config p, q ∈ ps)
include hbackup hcompanion

theorem pristine_steps {documents : Array String} {m : Module} :
    Edit.Steps (Changes ps) (pristine config p (Backup.of p config.backupSuffix) documents m) := by
  have hframe {α : Type} {act : Edit (Logged Session) α} (h : Edit.Steps (Frame ps) act) :
      Edit.Steps (Changes ps) act := h.mono fun _ _ hs => hs.changes
  unfold pristine
  refine (hframe ((Backup.create_steps _).mono fun _ _ hs => hs.mono hbackup)).bind fun _ => ?_
  refine Edit.Steps.bind (hframe (deployCompanion_steps hcompanion)) fun _ => ?_
  refine Edit.Steps.bind (Edit.steps_ofExcept _) fun _ => ?_
  dsimp only
  have hfile := hbackup (Backup.of p config.backupSuffix).file_mem_paths
  have hsymbols := hbackup (Backup.of p config.backupSuffix).symbols_mem_paths
  rw [Backup.file_of] at hfile
  rw [Backup.symbols_of] at hsymbols
  refine (types_steps _).bind fun _ => (hframe (Session.saveModule_steps hfile hsymbols)).bind fun _ => ?_
  exact (hframe (Session.log_steps _)).bind fun _ => Edit.steps_pure _

end Steps

theorem skip_steps (reason : SkipReason) : Edit.Steps (Frame ps) (skip p reason) :=
  (Session.log_steps _).bind fun _ => Edit.steps_pure _

theorem skip_ok {reason : SkipReason} {outcome : Outcome} (h : skip p reason s = .ok outcome s') :
    outcome = .skipped reason ∧ s'.value = s.value := by
  obtain ⟨_, s₁, hlog, hpure⟩ := edit_bind_ok.mp h
  cases hlog
  cases hpure
  exact ⟨rfl, rfl⟩

/-- What is done to a module whose backup was restored. -/
def restored (config : Config) (p : Path) (b : Backup) : Edit (Logged Session) Outcome := do
  if !(← Session.isFile b.symbols) then skip p .noSymbols
  else
    let m ← Session.loadModule p
    match m.documents with
    | none => skip p .noSymbols
    | some documents =>
      let documents := documents.toArray
      if !hasSource config.scope documents m then skip p .outOfScope
      else if m.hasAttribute config.markerAttribute then throw (.alreadyInstrumented p)
      else pristine config p b documents m

theorem module_eq (config : Config) (p : Path) : module config p = (do
    if ← (Backup.of p config.backupSuffix).restore then
      Edit.log (.restored p (Backup.of p config.backupSuffix).copy)
    restored config p (Backup.of p config.backupSuffix)) :=
  rfl

section Steps

variable (hbackup : (Backup.of p config.backupSuffix).paths ⊆ ps) (hcompanion : ∀ q ∈ companionCopy? config p, q ∈ ps)
include hbackup hcompanion

theorem restored_steps : Edit.Steps (Changes ps) (restored config p (Backup.of p config.backupSuffix)) := by
  have hframe {α : Type} {act : Edit (Logged Session) α} (h : Edit.Steps (Frame ps) act) :
      Edit.Steps (Changes ps) act := h.mono fun _ _ hs => hs.changes
  unfold restored
  refine (hframe (Session.isFile_steps _)).bind fun isFile => ?_
  split
  · exact hframe (skip_steps _)
  · refine (hframe (Session.loadModule_steps p)).bind fun m => ?_
    split
    · exact hframe (skip_steps _)
    · dsimp only
      split
      · exact hframe (skip_steps _)
      · split
        · exact Edit.steps_throw _
        · exact pristine_steps hbackup hcompanion

theorem module_steps_of : Edit.Steps (Changes ps) (module config p) := by
  have hrestore : Edit.Steps (Changes ps) (Backup.of p config.backupSuffix).restore :=
    (Backup.restore_steps _).mono fun _ _ hs => (hs.mono hbackup).changes
  rw [module_eq]
  refine hrestore.bind fun found => ?_
  split
  · exact ((Session.log_steps _).mono fun _ _ hs => hs.changes).bind fun _ => restored_steps hbackup hcompanion
  · exact restored_steps hbackup hcompanion

end Steps

theorem module_writes (config : Config) (p : Path) : Edit.Steps (Changes (writes config p)) (module config p) :=
  module_steps_of (List.subset_append_left _ _) fun _ hq => List.mem_append_right _ (Option.mem_toList.mpr hq)

/-- Once the backup of a module was restored, the rest is done to the restored files. -/
theorem module_of_restore {found : Bool} {t : Logged Session}
    (h : (Backup.of p config.backupSuffix).restore s = .ok found t) : module config p s =
      restored config p (Backup.of p config.backupSuffix)
        (if found then { t with log := t.log.push (.restored p (Backup.of p config.backupSuffix).copy) } else t) := by
  rw [module_eq, edit_bind_of_ok h]
  generalize restored config p (Backup.of p config.backupSuffix) = rest
  cases found <;> rfl

theorem exists_module_eq {found : Bool} {t : Logged Session}
    (h : (Backup.of p config.backupSuffix).restore s = .ok found t) : ∃ t' : Logged Session, t'.value = t.value ∧
      module config p s = restored config p (Backup.of p config.backupSuffix) t' :=
  ⟨_, by split <;> rfl, module_of_restore h⟩

/-- A module is dealt with after its backup was restored. -/
theorem exists_restored {outcome : Outcome} (h : module config p s = .ok outcome s') :
    ∃ found t t', (Backup.of p config.backupSuffix).restore s = .ok found t ∧ t'.value = t.value ∧
      restored config p (Backup.of p config.backupSuffix) t' = .ok outcome s' := by
  obtain ⟨found, t, hrestore, -⟩ := edit_bind_ok.mp (module_eq config p ▸ h)
  obtain ⟨t', hvalue, hsame⟩ := exists_module_eq hrestore
  exact ⟨found, t, t', hrestore, hvalue, hsame ▸ h⟩

end Weave

/-- A run passes over the first of the listed modules, or deals with it. -/
theorem Run.modules_cons_ok {config : Config} {p : Path} {ps seen : List Path} {report r : Report}
    {s s' : Logged Session} : modules config (p :: ps) seen report s = .ok r s' ↔
      (seen.any (·.same p) = true ∧
        modules config ps seen report { s with log := s.log.push (.repeated p) } = .ok r s') ∨
      (seen.any (·.same p) = false ∧ ∃ outcome t, Weave.module config p s = .ok outcome t ∧
        modules config ps (p :: seen) (report.addOutcome outcome) t = .ok r s') := by
  rw [modules]
  cases seen.any (·.same p) with
  | true =>
    rw [if_pos rfl, edit_bind_ok]
    constructor
    · rintro ⟨_, t, hlog, h⟩
      cases hlog
      exact .inl ⟨rfl, h⟩
    · rintro (⟨-, h⟩ | ⟨hfalse, -⟩)
      · exact ⟨(), _, rfl, h⟩
      · cases hfalse
  | false =>
    rw [if_neg Bool.false_ne_true, edit_bind_ok]
    constructor
    · exact fun h => .inr ⟨rfl, h⟩
    · rintro (⟨htrue, -⟩ | ⟨-, h⟩)
      · cases htrue
      · exact h

end CilProbes
