import CilProbes.Coverage.Session
import CilProbes.Proofs.Disk.Effects
import Mathlib.Order.Defs.Unbundled

/-!
# What sessions change

A relation between the states before and after an operation, however it ends (`Edit.Steps`), passes on to sequences of
operations. The files of a session are used with two such relations: only files of certain paths are changed
(`Session.Changes`), and besides no number for a probe is given out (`Session.Frame`).
-/

namespace CilProbes

namespace Edit

variable {σ α β : Type} {R S : σ → σ → Prop} {act : Edit σ α} {s s' : σ} {a : α} {fault : Fault}

/-- An outcome meets one condition if it is a success, and another one if it is a failure. -/
def Meets (good : α → σ → Prop) (bad : σ → Prop) : EStateM.Result Fault σ α → Prop
  | .ok a s => good a s
  | .error _ s => bad s

theorem Meets.bind {f : α → Edit σ β} {good : α → σ → Prop} {good' : β → σ → Prop} {bad : σ → Prop}
    (h : Meets good bad (act s)) (hf : ∀ a s', good a s' → Meets good' bad (f a s')) :
    Meets good' bad ((act >>= f) s) := by
  show Meets good' bad (EStateM.bind act f s)
  unfold EStateM.bind
  cases hact : act s with
  | ok a s' =>
    rw [hact] at h
    exact hf a s' h
  | error fault s' =>
    rw [hact] at h
    exact h

theorem Meets.mono {good good' : α → σ → Prop} {bad bad' : σ → Prop} {r : EStateM.Result Fault σ α}
    (h : Meets good bad r) (hgood : ∀ a s, good a s → good' a s) (hbad : ∀ s, bad s → bad' s) : Meets good' bad' r := by
  cases r with
  | ok a s => exact hgood a s h
  | error fault s => exact hbad s h

theorem Meets.and {good good' : α → σ → Prop} {bad bad' : σ → Prop} {r : EStateM.Result Fault σ α}
    (h : Meets good bad r) (h' : Meets good' bad' r) :
    Meets (fun a s => good a s ∧ good' a s) (fun s => bad s ∧ bad' s) r := by
  cases r with
  | ok a s => exact ⟨h, h'⟩
  | error fault s => exact ⟨h, h'⟩

theorem meets_of_ok {good : α → σ → Prop} {bad : σ → Prop} {r : EStateM.Result Fault σ α}
    (h : ∃ a s, r = .ok a s ∧ good a s) : Meets good bad r := by
  obtain ⟨a, s, rfl, hgood⟩ := h
  exact hgood

theorem meets_bind_ok {f : α → Edit σ β} {good : β → σ → Prop} {bad : σ → Prop} (h : act s = .ok a s')
    (hf : Meets good bad (f a s')) : Meets good bad ((act >>= f) s) := by
  rw [edit_bind_of_ok h]
  exact hf

theorem meets_ofExcept_bind {x : Except Fault α} {f : α → Edit σ β} {good : β → σ → Prop} {bad : σ → Prop} (hbad : bad s)
    (hf : ∀ a, x = .ok a → Meets good bad (f a s)) : Meets good bad ((ofExcept x >>= f) s) := by
  cases x with
  | ok a => exact hf a rfl
  | error fault => exact hbad

/-- Successes and failures of the operation change states as the relation tells. -/
structure Steps (R : σ → σ → Prop) (act : Edit σ α) : Prop where
  meets : ∀ s, Meets (fun _ => R s) (R s) (act s)

theorem Steps.ok (h : Steps R act) (hs : act s = .ok a s') : R s s' := by
  have := h.meets s
  rwa [hs] at this

theorem Steps.error (h : Steps R act) (hs : act s = .error fault s') : R s s' := by
  have := h.meets s
  rwa [hs] at this

theorem Steps.bind_meets {f : α → Edit σ β} {good : β → σ → Prop} {bad : σ → Prop} (h : Steps R act)
    (hbad : ∀ t, R s t → bad t) (hf : ∀ a t, act s = .ok a t → R s t → Meets good bad (f a t)) :
    Meets good bad ((act >>= f) s) := by
  show Meets good bad (EStateM.bind act f s)
  unfold EStateM.bind
  cases hact : act s with
  | ok a t => exact hf a t hact (h.ok hact)
  | error fault t => exact hbad t (h.error hact)

theorem Steps.mono (h : Steps R act) (himp : ∀ s s', R s s' → S s s') : Steps S act :=
  ⟨fun s => (h.meets s).mono (fun _ => himp s) (himp s)⟩

section Sequences

variable [Std.Refl R]

theorem steps_pure (a : α) : Steps R (pure a : Edit σ α) :=
  ⟨fun s => refl_of R s⟩

theorem steps_throw (fault : Fault) : Steps R (throw fault : Edit σ α) :=
  ⟨fun s => refl_of R s⟩

theorem steps_get : Steps R (get : Edit σ σ) :=
  ⟨fun s => refl_of R s⟩

theorem steps_ofExcept (x : Except Fault α) : Steps R (ofExcept x : Edit σ α) := by
  cases x with
  | ok a => exact steps_pure a
  | error fault => exact steps_throw fault

end Sequences

theorem Steps.bind [IsTrans σ R] {f : α → Edit σ β} (h : Steps R act) (hf : ∀ a, Steps R (f a)) :
    Steps R (act >>= f) := by
  refine ⟨fun s => ?_⟩
  show Meets _ _ (EStateM.bind act f s)
  unfold EStateM.bind
  cases hact : act s with
  | ok a s' => exact ((hf a).meets s').mono (fun _ _ => trans_of R (h.ok hact)) (fun _ => trans_of R (h.ok hact))
  | error fault s' => exact h.error hact

end Edit

namespace Session

/-- Files of the given paths are changed only. -/
def Changes (ps : List Path) (s s' : Logged Session) : Prop :=
  s.value.disk.Within ps s'.value.disk

/-- Files of the given paths are changed only, and no number is given out. -/
structure Frame (ps : List Path) (s s' : Logged Session) : Prop where
  changes : Changes ps s s'
  ids : s'.value.ids = s.value.ids

variable {ps qs : List Path}

instance : Std.Refl (Changes ps) where
  refl s := Disk.Within.refl s.value.disk ps

instance : IsTrans (Logged Session) (Changes ps) where
  trans _ _ _ h h' := Disk.Within.trans h h'

instance : Std.Refl (Frame ps) where
  refl _ := ⟨refl_of (Changes ps) _, rfl⟩

instance : IsTrans (Logged Session) (Frame ps) where
  trans _ _ _ h h' := ⟨trans_of (Changes ps) h.changes h'.changes, h'.ids.trans h.ids⟩

theorem Changes.mono {s s' : Logged Session} (h : Changes ps s s') (hsub : ps ⊆ qs) : Changes qs s s' :=
  Disk.Within.mono h hsub

theorem Frame.mono {s s' : Logged Session} (h : Frame ps s s') (hsub : ps ⊆ qs) : Frame qs s s' :=
  ⟨h.changes.mono hsub, h.ids⟩

/-! ## Operations on files -/

variable {α : Type} {p q : Path} {c : List UInt8} {s s' : Logged Session} {a : α}

theorem ask_ok {f : Disk → Except DiskFault α} : ask f s = .ok a s' ↔ f s.value.disk = .ok a ∧ s' = s := by
  unfold ask
  rw [edit_get_bind]
  cases f s.value.disk with
  | ok b =>
    constructor
    · intro h
      cases h
      exact ⟨rfl, rfl⟩
    · rintro ⟨hb, rfl⟩
      cases hb
      rfl
  | error cause => exact ⟨fun h => (by cases h), fun h => (by cases h.1)⟩

theorem read_content (h : read p s = .ok c s') : s.value.disk.content? p = some c ∧ s' = s := by
  obtain ⟨hread, hs⟩ := ask_ok.mp h
  exact ⟨Disk.read_ok.mp hread, hs⟩

theorem isFile_ok {found : Bool} (h : isFile p s = .ok found s') :
    found = s.value.disk.isFile p ∧ s' = s := by
  have hfound : isFile p s = .ok (s.value.disk.isFile p) s := rfl
  rw [hfound] at h
  cases h
  exact ⟨rfl, rfl⟩

theorem ask_steps (f : Disk → Except DiskFault α) : Edit.Steps (Frame ps) (ask f) := by
  refine Edit.steps_get.bind fun s => ?_
  split
  · exact Edit.steps_pure _
  · exact Edit.steps_throw _

theorem change_ok {f : Disk → Except DiskFault Disk} :
    change f s = .ok () s' ↔ ∃ d, f s.value.disk = .ok d ∧ s' = { s with value := { s.value with disk := d } } := by
  unfold change
  rw [edit_bind_ok]
  constructor
  · rintro ⟨d, s₁, hask, h⟩
    obtain ⟨hd, rfl⟩ := ask_ok.mp hask
    cases h
    exact ⟨d, hd, rfl⟩
  · rintro ⟨d, hd, rfl⟩
    exact ⟨d, s, ask_ok.mpr ⟨hd, rfl⟩, rfl⟩

/-- A change of the disk that fails changes nothing. -/
theorem change_meets {f : Disk → Except DiskFault Disk} {good : Unit → Logged Session → Prop}
    {bad : Logged Session → Prop} (hbad : bad s)
    (hgood : ∀ d, f s.value.disk = .ok d → good () { s with value := { s.value with disk := d } }) :
    Edit.Meets good bad (change f s) := by
  cases hf : f s.value.disk with
  | ok d =>
    rw [change_ok.mpr ⟨d, hf, rfl⟩]
    exact hgood d hf
  | error cause =>
    have hfault : change f s = .error (.disk cause) s := by
      unfold change ask
      show EStateM.bind (EStateM.bind EStateM.get _) _ s = _
      unfold EStateM.bind EStateM.get
      dsimp only
      rw [hf]
      rfl
    rw [hfault]
    exact hbad

theorem change_steps {f : Disk → Except DiskFault Disk} (h : ∀ d d', f d = .ok d' → d.Within ps d') :
    Edit.Steps (Frame ps) (change f) :=
  ⟨fun s => change_meets (refl_of (Frame ps) s) fun _ hd => ⟨h _ _ hd, rfl⟩⟩

theorem isFile_steps (p : Path) : Edit.Steps (Frame ps) (isFile p) :=
  Edit.steps_get.bind fun _ => Edit.steps_pure _

theorem write_steps (h : p ∈ ps) : Edit.Steps (Frame ps) (write p c) :=
  change_steps fun _ _ hd => (Disk.within_write hd).mono (List.cons_subset.mpr ⟨h, List.nil_subset _⟩)

theorem copy_steps (h : q ∈ ps) : Edit.Steps (Frame ps) (copy p q) :=
  change_steps fun _ _ hd => (Disk.within_copy hd).mono (List.cons_subset.mpr ⟨h, List.nil_subset _⟩)

theorem remove_steps (h : p ∈ ps) : Edit.Steps (Frame ps) (remove p) :=
  change_steps fun _ _ hd => (Disk.within_remove hd).mono (List.cons_subset.mpr ⟨h, List.nil_subset _⟩)

theorem log_steps (event : LogEvent) : Edit.Steps (Frame ps) (Edit.log event) :=
  ⟨fun _ => ⟨Disk.Within.refl _ _, rfl⟩⟩

theorem onOther_steps {τ : Type} (value : τ) (act : Edit (Logged τ) α) :
    Edit.Steps (Frame ps) (Edit.onOther value act) := by
  refine ⟨fun s => ?_⟩
  unfold Edit.onOther
  split <;> exact ⟨Disk.Within.refl _ _, rfl⟩

/-! ## Sources and module files -/

theorem sourceLines_steps (p : Path) : Edit.Steps (Frame ps) (sourceLines p) := by
  refine Edit.steps_get.bind fun s => ?_
  split
  · exact Edit.steps_pure _
  · refine (ask_steps _).bind fun bytes => (log_steps _).bind fun _ => Edit.Steps.bind ?_ fun _ => Edit.steps_pure _
    exact ⟨fun _ => ⟨Disk.Within.refl _ _, rfl⟩⟩

theorem statement?_steps (p : Path) (span : SourceSpan) : Edit.Steps (Frame ps) (statement? p span) :=
  (sourceLines_steps p).bind fun _ => Edit.steps_pure _

theorem nextId_steps : Edit.Steps (Changes ps) nextId :=
  ⟨fun _ => Disk.Within.refl _ _⟩

theorem load_steps (data : List UInt8) : Edit.Steps (Frame ps) (Module.load data) :=
  (Edit.steps_ofExcept _).bind fun _ => (log_steps _).bind fun _ => Edit.steps_pure _

theorem loadModule_steps (p : Path) : Edit.Steps (Frame ps) (loadModule p) := by
  refine (ask_steps _).bind fun data => (load_steps data).bind fun m => (isFile_steps _).bind fun found => ?_
  split
  · refine (ask_steps _).bind fun data => (Edit.steps_ofExcept _).bind fun file => ?_
    exact (onOther_steps _ _).bind fun _ => Edit.steps_pure _
  · exact Edit.steps_pure _

theorem saveModule_steps {m : Module} (hfile : p ∈ ps) (hsymbols : SymbolFile.pathFor p ∈ ps) :
    Edit.Steps (Frame ps) (saveModule p m) := by
  refine (onOther_steps _ _).bind fun saved => ?_
  dsimp only
  refine (write_steps hfile).bind fun _ => ?_
  split
  · exact write_steps hsymbols
  · exact Edit.steps_pure _

/-- What is written is the module as it is encoded. -/
theorem save_ok {m m' : Module} {files : Image.Files} (h : Edit.onOther m Module.save s = .ok (files, m') s') :
    m.encode = .ok files m' ∧ s'.value = s.value := by
  obtain ⟨hsave, hvalue⟩ := edit_onOther_ok.mp h
  refine ⟨?_, hvalue⟩
  generalize s'.log = log at hsave
  obtain ⟨_, s₁, hquietly, h₁⟩ := edit_bind_ok.mp hsave
  obtain ⟨saved, hencode, rfl⟩ := edit_onPart_ok.mp hquietly
  obtain ⟨_, s₂, hget, h₂⟩ := edit_bind_ok.mp h₁
  cases hget
  obtain ⟨_, s₃, hlog, h₃⟩ := edit_bind_ok.mp h₂
  cases hlog
  cases h₃
  exact hencode

end Session

end CilProbes
