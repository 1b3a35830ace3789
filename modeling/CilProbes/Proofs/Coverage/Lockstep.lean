import CilProbes.Coverage.Weave
import CilProbes.Proofs.Coverage.Probed
import CilProbes.Proofs.Disk.Agreement

/-!
# Work in lockstep

What an operation does depends on the files it reads, the sources read so far and the next number only. Two sessions
that agree on these (`Session.Agree`) stay in step: where the operation succeeds in one it succeeds in the other, with
the same result, and it changes both in the same way (`Edit.Lockstep`). This passes on to sequences of operations, and
from files to the probing of a module whose backup was restored (`Weave.restored_lockstep`).
-/

namespace CilProbes

open Disk (AgreeOn ChangedAlike)

namespace Session

/-- The sessions have the same files at some paths, the same sources and the same next number. -/
structure Agree (ps : List Path) (s t : Logged Session) : Prop where
  disks : AgreeOn ps s.value.disk t.value.disk
  sources : t.value.sources = s.value.sources
  ids : t.value.ids = s.value.ids

/-- Two sessions were changed in the same way. -/
structure Alike (s t s' t' : Logged Session) : Prop where
  disks : ChangedAlike s.value.disk t.value.disk s'.value.disk t'.value.disk
  sources : t'.value.sources = s'.value.sources
  ids : t'.value.ids = s'.value.ids

variable {ps : List Path} {s t s' t' s'' t'' : Logged Session}

theorem Agree.alike (h : Agree ps s t) : Alike s t s t :=
  ⟨.refl _ _, h.sources, h.ids⟩

theorem Agree.changed (h : Agree ps s t) (halike : Alike s t s' t') : Agree ps s' t' :=
  ⟨h.disks.changed halike.disks, halike.sources, halike.ids⟩

theorem Alike.trans (h : Alike s t s' t') (h' : Alike s' t' s'' t'') : Alike s t s'' t'' :=
  ⟨h.disks.trans h'.disks, h'.sources, h'.ids⟩

end Session

open Session (Agree Alike)

namespace Edit

variable {α β : Type} {ps : List Path} {act : Edit (Logged Session) α}

/-- Where the operation succeeds, it does so in all sessions that agree, and does the same to them. -/
structure Lockstep (ps : List Path) (act : Edit (Logged Session) α) : Prop where
  follow : ∀ {s t s' : Logged Session} {a : α}, Agree ps s t → act s = .ok a s' →
    ∃ t', act t = .ok a t' ∧ Alike s t s' t'

theorem lockstep_pure (a : α) : Lockstep ps (pure a) where
  follow hagree h := by
    cases h
    exact ⟨_, rfl, hagree.alike⟩

theorem lockstep_throw (fault : Fault) : Lockstep ps (throw fault : Edit (Logged Session) α) where
  follow _ h := by cases h

theorem Lockstep.bind {f : α → Edit (Logged Session) β} (h : Lockstep ps act) (hf : ∀ a, Lockstep ps (f a)) :
    Lockstep ps (act >>= f) where
  follow hagree hok := by
    obtain ⟨a, s₁, hact, hok⟩ := edit_bind_ok.mp hok
    obtain ⟨t₁, ht₁, halike₁⟩ := h.follow hagree hact
    obtain ⟨t₂, ht₂, halike₂⟩ := (hf a).follow (hagree.changed halike₁) hok
    exact ⟨t₂, edit_bind_ok.mpr ⟨a, t₁, ht₁, ht₂⟩, halike₁.trans halike₂⟩

theorem lockstep_ofExcept_bind {x : Except Fault α} {f : α → Edit (Logged Session) β}
    (hf : ∀ a, x = .ok a → Lockstep ps (f a)) : Lockstep ps (ofExcept x >>= f) := by
  cases x with
  | ok a => exact ⟨(hf a rfl).follow⟩
  | error fault => exact ⟨fun _ h => by cases h⟩

theorem lockstep_log (event : LogEvent) : Lockstep ps (log event) where
  follow hagree h := by
    cases h
    exact ⟨_, rfl, hagree.alike.disks, hagree.sources, hagree.ids⟩

/-- An operation on another value that leaves the same whatever the log is. -/
theorem lockstep_onOther {τ : Type} {value : τ} {act : Edit (Logged τ) α}
    (h : ∀ {a v log log'}, act ⟨value, log⟩ = .ok a ⟨v, log'⟩ → ∀ more, ∃ more', act ⟨value, more⟩ = .ok a ⟨v, more'⟩) :
    Lockstep ps (onOther value act) where
  follow {s t s' result} hagree hok := by
    obtain ⟨a, v⟩ := result
    obtain ⟨hact, hvalue⟩ := edit_onOther_ok.mp hok
    obtain ⟨log, hlog⟩ := h hact t.log
    refine ⟨{ t with log }, edit_onOther_ok.mpr ⟨hlog, rfl⟩, ?_⟩
    have halike := hagree.alike
    obtain ⟨value', log'⟩ := s'
    cases hvalue
    exact ⟨halike.disks, halike.sources, halike.ids⟩

end Edit

open Edit (Lockstep)

namespace Session

variable {α : Type} {ps : List Path} {p q : Path} {c : List UInt8}

/-! ## Files -/

theorem ask_lockstep {f : Disk → Except DiskFault α} (h : ∀ {d e a}, AgreeOn ps d e → f d = .ok a → f e = .ok a) :
    Lockstep ps (ask f) where
  follow hagree hok := by
    obtain ⟨hf, rfl⟩ := ask_ok.mp hok
    exact ⟨_, ask_ok.mpr ⟨h hagree.disks hf, rfl⟩, hagree.alike⟩

theorem change_lockstep {f : Disk → Except DiskFault Disk}
    (h : ∀ {d e d'}, AgreeOn ps d e → f d = .ok d' → ∃ e', f e = .ok e' ∧ ChangedAlike d e d' e') :
    Lockstep ps (change f) where
  follow hagree hok := by
    obtain ⟨d', hd', rfl⟩ := change_ok.mp hok
    obtain ⟨e', he', halike⟩ := h hagree.disks hd'
    exact ⟨_, change_ok.mpr ⟨e', he', rfl⟩, halike, hagree.sources, hagree.ids⟩

theorem isFile_lockstep (hp : p ∈ ps) : Lockstep ps (isFile p) where
  follow {s t s' found} hagree hok := by
    obtain ⟨rfl, rfl⟩ := isFile_ok hok
    rw [← hagree.disks.isFile_eq hp]
    exact ⟨t, rfl, hagree.alike⟩

theorem read_lockstep (hp : p ∈ ps) : Lockstep ps (read p) :=
  ask_lockstep fun hagree hread => hagree.read_ok hp hread

theorem write_lockstep : Lockstep ps (write p c) :=
  change_lockstep fun hagree hwrite => hagree.exists_write hwrite

theorem copy_lockstep (hp : p ∈ ps) : Lockstep ps (copy p q) :=
  change_lockstep fun hagree hcopy => hagree.exists_copy hp hcopy

theorem remove_lockstep (hp : p ∈ ps) : Lockstep ps (remove p) :=
  change_lockstep fun hagree hremove => hagree.exists_remove hp hremove

/-! ## Numbers and sources -/

theorem nextId_lockstep : Lockstep ps nextId where
  follow {s t s' id} hagree hok := by
    have hs : nextId s = .ok s.value.ids.take.1 { s with value := { s.value with ids := s.value.ids.take.2 } } := rfl
    have ht : nextId t = .ok t.value.ids.take.1 { t with value := { t.value with ids := t.value.ids.take.2 } } := rfl
    rw [hs] at hok
    cases hok
    rw [ht, hagree.ids]
    exact ⟨_, rfl, .refl _ _, hagree.sources, rfl⟩

theorem sourceLines_lockstep (hp : p ∈ ps) : Lockstep ps (sourceLines p) where
  follow {s t s' lines} hagree hok := by
    unfold sourceLines at hok ⊢
    rw [edit_get_bind] at hok ⊢
    rw [hagree.sources]
    cases hlookup : s.value.sources.lookup p.components with
    | some found =>
      rw [hlookup] at hok
      cases hok
      exact ⟨t, rfl, hagree.alike⟩
    | none =>
      rw [hlookup] at hok
      refine Lockstep.follow ?_ hagree hok
      refine (read_lockstep hp).bind fun bytes => (Edit.lockstep_log _).bind fun _ => Lockstep.bind ?_ fun _ =>
        Edit.lockstep_pure _
      exact ⟨fun hagree h => by
        cases h
        exact ⟨_, rfl, .refl _ _, congrArg ((p.components, SourceText.ofBytes bytes) :: ·) hagree.sources, hagree.ids⟩⟩

theorem statement?_lockstep (hp : p ∈ ps) (span : SourceSpan) : Lockstep ps (statement? p span) :=
  (sourceLines_lockstep hp).bind fun _ => Edit.lockstep_pure _

/-! ## Module files -/

theorem load_lockstep (data : List UInt8) : Lockstep ps (Module.load data) :=
  Edit.lockstep_ofExcept_bind fun _ _ => (Edit.lockstep_log _).bind fun _ => Edit.lockstep_pure _

theorem attach_lockstep {m : Module} {file : SymbolFile} {data : List UInt8} (h : SymbolFile.parse data = .ok file) :
    Lockstep ps (Edit.onOther m (Module.attach file)) := by
  have hfile := (SymbolFile.parsed_of_parse h).toWellFormed
  refine Edit.lockstep_onOther fun hattach more => ?_
  obtain rfl := Module.eq_attached hfile hattach
  exact Module.attach_ok hfile m more

theorem save_lockstep {m : Module} : Lockstep ps (Edit.onOther m Module.save) where
  follow {s t s' result} hagree hok := by
    obtain ⟨files, m'⟩ := result
    obtain ⟨hencode, hvalue⟩ := save_ok hok
    have hquietly : Edit.quietly Module.encode (⟨m, t.log⟩ : Logged Module) = .ok files ⟨m', t.log⟩ :=
      edit_onPart_ok.mpr ⟨m', hencode, rfl⟩
    refine ⟨{ t with log := t.log.push (.serialized m'.name files.image.length) }, edit_onOther_ok.mpr ⟨?_, rfl⟩, ?_⟩
    · exact edit_bind_ok.mpr ⟨files, _, hquietly, rfl⟩
    · have halike := hagree.alike
      obtain ⟨value', log'⟩ := s'
      cases hvalue
      exact ⟨halike.disks, halike.sources, halike.ids⟩

theorem loadModule_lockstep (hp : p ∈ ps) (hsymbols : SymbolFile.pathFor p ∈ ps) : Lockstep ps (loadModule p) := by
  refine (read_lockstep hp).bind fun data => (load_lockstep data).bind fun m => (isFile_lockstep hsymbols).bind
    fun found => ?_
  split
  · refine (read_lockstep hsymbols).bind fun data => Edit.lockstep_ofExcept_bind fun file hfile => ?_
    exact (attach_lockstep hfile).bind fun _ => Edit.lockstep_pure _
  · exact Edit.lockstep_pure _

theorem saveModule_lockstep {m : Module} : Lockstep ps (saveModule p m) := by
  refine save_lockstep.bind fun saved => ?_
  dsimp only
  refine write_lockstep.bind fun _ => ?_
  split
  · exact write_lockstep
  · exact Edit.lockstep_pure _

end Session

namespace Backup

variable {ps : List Path} {b : Backup} {file copy : Path}

theorem create_lockstep (hfile : b.file ∈ ps) (hsymbols : b.symbols ∈ ps) : Lockstep ps b.create :=
  (Session.copy_lockstep hfile).bind fun _ => Session.copy_lockstep hsymbols

theorem restoreFile_lockstep (hcopy : copy ∈ ps) : Lockstep ps (restoreFile file copy) := by
  refine (Session.isFile_lockstep hcopy).bind fun found => ?_
  split
  · refine (Session.copy_lockstep hcopy).bind fun _ => (Session.remove_lockstep hcopy).bind fun _ => ?_
    exact Edit.lockstep_pure _
  · exact Edit.lockstep_pure _

theorem restore_lockstep (b : Backup) : Lockstep b.paths b.restore := by
  refine (restoreFile_lockstep b.copy_mem_paths).bind fun _ => (restoreFile_lockstep ?_).bind fun _ => ?_
  · simp [paths]
  · exact Edit.lockstep_pure _

end Backup

namespace Weave

variable {c : Context} {config : Config} {p : Path} {ps : List Path}

/-! ## Placing probes -/

/-- All source documents in scope are among the paths. -/
def Sourced (scope : SourceScope) (ps : List Path) : Prop :=
  ∀ document ∈ scope.files, (⟨document⟩ : Path) ∈ ps

theorem mem_of_resolve {scope : SourceScope} {document relative : String} (hsources : Sourced scope ps)
    (h : scope.resolve document = some relative) : (⟨document⟩ : Path) ∈ ps := by
  unfold SourceScope.resolve at h
  split at h
  · split at h
    · next hlisted => exact hsources document (List.elem_iff.mp hlisted)
    · cases h
  · cases h

theorem points_lockstep (hsources : Sourced c.scope ps) (typeName method : String) (points : List SequencePoint)
    (body : MethodBody) : Lockstep ps (Weave.points c typeName method points body) := by
  induction points generalizing body with
  | nil => exact Edit.lockstep_pure _
  | cons p points ih =>
    unfold Weave.points
    split
    · exact Edit.lockstep_throw _
    · split
      · exact (Edit.lockstep_log _).bind fun _ => Edit.lockstep_pure _
      · next hresolve =>
        refine (Session.statement?_lockstep (mem_of_resolve hsources hresolve) _).bind fun found => ?_
        split
        · exact ih body
        · split
          · exact (Edit.lockstep_log _).bind fun _ => Edit.lockstep_pure _
          · refine Edit.lockstep_ofExcept_bind fun _ _ => Session.nextId_lockstep.bind fun _ => ?_
            exact Edit.lockstep_ofExcept_bind fun _ _ => (ih _).bind fun _ => Edit.lockstep_pure _

theorem method_lockstep (hsources : Sourced c.scope ps) (typeName : String) (m : Method) :
    Lockstep ps (method c typeName m) := by
  unfold method
  split
  · exact Edit.lockstep_pure _
  · exact (points_lockstep hsources ..).bind fun _ => Edit.lockstep_pure _

theorem methods_lockstep (hsources : Sourced c.scope ps) (typeName : String) (ms : List Method) :
    Lockstep ps (methods c typeName ms) := by
  induction ms with
  | nil => exact Edit.lockstep_pure _
  | cons m ms ih => exact (method_lockstep hsources ..).bind fun _ => ih.bind fun _ => Edit.lockstep_pure _

mutual

theorem type_lockstep (hsources : Sourced c.scope ps) (typeName : String) :
    (t : TypeDef) → Lockstep ps (type c typeName t)
  | ⟨_, _, _, own, nested⟩ => by
    unfold type
    refine (nestedTypes_lockstep hsources typeName nested).bind fun _ => ?_
    exact (methods_lockstep hsources typeName own).bind fun _ => Edit.lockstep_pure _

theorem nestedTypes_lockstep (hsources : Sourced c.scope ps) (outer : String) :
    (ts : List TypeDef) → Lockstep ps (nestedTypes c outer ts)
  | [] => by
    unfold nestedTypes
    exact Edit.lockstep_pure _
  | t :: ts => by
    unfold nestedTypes
    refine (type_lockstep hsources _ t).bind fun _ => ?_
    exact (nestedTypes_lockstep hsources outer ts).bind fun _ => Edit.lockstep_pure _

end

theorem types_lockstep (hsources : Sourced c.scope ps) (ts : List TypeDef) : Lockstep ps (types c ts) := by
  induction ts with
  | nil => exact Edit.lockstep_pure _
  | cons t ts ih => exact (type_lockstep hsources ..).bind fun _ => ih.bind fun _ => Edit.lockstep_pure _

/-! ## Modules -/

/-- The files that are given to a run beside the modules: the companion and the source documents in scope. -/
def givens (config : Config) : List Path :=
  config.companion.toList ++ config.scope.files.map Path.mk

/-- The files that probing a module reads once its backup was restored. -/
def inputs (config : Config) (p : Path) : List Path :=
  p :: SymbolFile.pathFor p :: givens config

theorem sourced_inputs (config : Config) (p : Path) : Sourced config.scope (inputs config p) :=
  fun _ hdocument => List.mem_cons_of_mem _ (List.mem_cons_of_mem _
    (List.mem_append_right _ (List.mem_map_of_mem hdocument)))

theorem deployCompanion_lockstep : Lockstep (inputs config p) (deployCompanion config p) := by
  unfold deployCompanion
  split
  · exact Edit.lockstep_pure _
  · next companion hcompanion =>
    split
    · exact Edit.lockstep_throw _
    · dsimp only
      split
      · have hmem : companion ∈ inputs config p := by
          unfold inputs givens
          rw [hcompanion]
          simp
        exact (Session.copy_lockstep hmem).bind fun _ => (Edit.lockstep_log _).bind fun _ => Edit.lockstep_pure _
      · exact Edit.lockstep_pure _

theorem skip_lockstep (reason : SkipReason) : Lockstep ps (skip p reason) :=
  (Edit.lockstep_log _).bind fun _ => Edit.lockstep_pure _

theorem pristine_lockstep {documents : Array String} {m : Module} :
    Lockstep (inputs config p) (pristine config p (Backup.of p config.backupSuffix) documents m) := by
  have hfile : (Backup.of p config.backupSuffix).file ∈ inputs config p := List.mem_cons_self
  have hsymbols : (Backup.of p config.backupSuffix).symbols ∈ inputs config p := by
    rw [Backup.symbols_of]
    exact List.mem_cons_of_mem _ List.mem_cons_self
  unfold pristine
  refine (Backup.create_lockstep hfile hsymbols).bind fun _ => deployCompanion_lockstep.bind fun _ => ?_
  refine Edit.lockstep_ofExcept_bind fun prepared _ => ?_
  dsimp only
  refine (types_lockstep ?_ _).bind fun _ => Session.saveModule_lockstep.bind fun _ => ?_
  · exact sourced_inputs config p
  · exact (Edit.lockstep_log _).bind fun _ => Edit.lockstep_pure _

/-- Once the backup of a module was restored, what is done to it depends on its inputs only. -/
theorem restored_lockstep : Lockstep (inputs config p) (restored config p (Backup.of p config.backupSuffix)) := by
  have hsymbols : SymbolFile.pathFor p ∈ inputs config p := List.mem_cons_of_mem _ List.mem_cons_self
  unfold restored
  rw [Backup.symbols_of]
  refine (Session.isFile_lockstep hsymbols).bind fun isFile => ?_
  split
  · exact skip_lockstep _
  · refine (Session.loadModule_lockstep List.mem_cons_self hsymbols).bind fun m => ?_
    split
    · exact skip_lockstep _
    · dsimp only
      split
      · exact skip_lockstep _
      · split
        · exact Edit.lockstep_throw _
        · exact pristine_lockstep

end Weave

end CilProbes
