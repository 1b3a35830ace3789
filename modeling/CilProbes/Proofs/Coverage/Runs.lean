import CilProbes.Proofs.Coverage.Histories
import CilProbes.Proofs.Coverage.Probed
import CilProbes.Proofs.Coverage.Reports

/-!
# Numbers and probes of a run

A run that ends well reports its probes by their numbers, which are `1, 2, …` in the order of the modules, of the
methods as they are walked, and of the points as they are taken (`Run.probes_numbered`). The module files on the disk
carry these probes: what a module was probed to is not touched when the modules after it are probed.
-/

namespace CilProbes

open Weave (Mark Marked)

/-! ## One module -/

/-- The file was made of the pristine module that one disk keeps, and lies on the other. -/
structure ProbedFile.Placed (config : Config) (d d' : Disk) (f : ProbedFile) : Prop where
  made : f.Made config
  pristine : ∃ image symbols, (Backup.of f.path config.backupSuffix).Safe image symbols d ∧
    f.pristine.LoadedFrom image symbols
  written : d'.content? f.path = some f.image

/-- The module file has the content that it or its copy had. -/
def Unprobed (config : Config) (d d' : Disk) (p : Path) : Prop :=
  d'.content? p = d.content? p ∨ d'.content? p = d.content? (Backup.of p config.backupSuffix).copy

namespace Weave

open Session (Changes)

variable {config : Config} {p : Path} {s s' : Logged Session} {outcome : Outcome}

end Weave

/-! ## Changes by other modules -/

theorem Disk.Within.symm {d d' : Disk} {ps : List Path} (h : d.Within ps d') : d'.Within ps d where
  folders := h.folders.symm
  others l hl := by
    refine (h.others l fun p hp => ?_).symm
    rw [← h.place?_eq]
    exact hl p hp

section Elsewhere

variable {config : Config} {p : Path} {ps : List Path} {d d' d'' : Disk} {f : ProbedFile}

theorem ProbedFile.Placed.later (h : f.Placed config d d') (hd : d'.Within ps d'')
    (haside : ∀ r ∈ ps, (Backup.of f.path config.backupSuffix).Aside d' r) : f.Placed config d d'' where
  made := h.made
  pristine := h.pristine
  written := by
    rw [hd.content?_eq fun r hr => haside r hr _ (Backup.mem_paths_of ..)]
    exact h.written

theorem ProbedFile.Placed.earlier (h : f.Placed config d' d'') (hd : d.Within ps d')
    (haside : ∀ r ∈ ps, (Backup.of f.path config.backupSuffix).Aside d r) : f.Placed config d d'' where
  made := h.made
  pristine := by
    obtain ⟨image, symbols, hsafe, hloaded⟩ := h.pristine
    exact ⟨image, symbols, hsafe.within hd.symm fun r hr q hq => hd.apart (haside r hr q hq), hloaded⟩
  written := h.written

theorem Unprobed.later (h : Unprobed config d d' p) (hd : d'.Within ps d'')
    (haside : ∀ r ∈ ps, (Backup.of p config.backupSuffix).Aside d' r) : Unprobed config d d'' p := by
  unfold Unprobed
  rw [hd.content?_eq fun r hr => haside r hr _ (Backup.mem_paths_of ..)]
  exact h

theorem Unprobed.earlier (h : Unprobed config d' d'' p) (hd : d.Within ps d')
    (haside : ∀ r ∈ ps, (Backup.of p config.backupSuffix).Aside d r) : Unprobed config d d'' p := by
  unfold Unprobed at h ⊢
  rw [hd.content?_eq fun r hr => haside r hr _ (Backup.mem_paths_of ..),
    hd.content?_eq fun r hr => haside r hr _ (Backup.copy_mem_paths _)] at h
  exact h

end Elsewhere

namespace Run

open Session (Changes)

/-- The files of modules with different paths are different, and no companion takes the place of one. -/
structure Separate (config : Config) (ps : List Path) (d : Disk) : Prop where
  files : ∀ p ∈ ps, (Backup.of p config.backupSuffix).paths.Pairwise d.Apart
  modules : ∀ p ∈ ps, ∀ q ∈ ps, p.same q = false →
    ∀ r ∈ (Backup.of p config.backupSuffix).paths, (Backup.of q config.backupSuffix).Aside d r
  companions : ∀ p ∈ ps, ∀ q ∈ ps, ∀ r ∈ Weave.companionPath? config p, (Backup.of q config.backupSuffix).Aside d r

variable {config : Config} {p q : Path} {ps qs seen : List Path} {d d' d'' : Disk} {s s' : Logged Session}
  {report r : Report} {f : ProbedFile}

theorem Separate.within (h : Separate config ps d) (hd : d.Within qs d') : Separate config ps d' where
  files p hp := Backup.pairwise_within (h.files p hp) hd
  modules p hp q hq hsame r hr t ht := hd.apart (h.modules p hp q hq hsame r hr t ht)
  companions p hp q hq r hr t ht := hd.apart (h.companions p hp q hq r hr t ht)

theorem Separate.subset (h : Separate config ps d) (hsub : qs ⊆ ps) : Separate config qs d where
  files p hp := h.files p (hsub hp)
  modules p hp q hq := h.modules p (hsub hp) q (hsub hq)
  companions p hp q hq := h.companions p (hsub hp) q (hsub hq)

/-- Probing a module leaves the files of the others alone. -/
theorem Separate.aside (h : Separate config ps d) (hp : p ∈ ps) (hq : q ∈ ps) (hsame : p.same q = false) :
    ∀ r ∈ Weave.paths config p, (Backup.of q config.backupSuffix).Aside d r := by
  intro r hr
  rcases List.mem_append.mp hr with hr | hr
  · exact h.modules p hp q hq hsame r hr
  · exact h.companions p hp q hq r (Option.mem_toList.mp hr)

/-- The paths that are not passed over from the start. -/
def pending (ps seen : List Path) : List Path :=
  ps.filter fun p => !seen.any (·.same p)

theorem pending_sublist (ps seen : List Path) : (pending ps seen).Sublist ps :=
  List.filter_sublist

theorem pending_cons_sublist (p : Path) (ps seen : List Path) : (pending ps (p :: seen)).Sublist (pending ps seen) := by
  refine List.monotone_filter_right ps fun q hq => ?_
  rw [List.any_cons, Bool.not_or, Bool.and_eq_true] at hq
  exact hq.2

theorem pending_cons (h : seen.any (·.same p) = false) : pending (p :: ps) seen = p :: pending ps seen :=
  List.filter_cons_of_pos (by simp [h])

theorem pending_cons_seen (h : seen.any (·.same p) = true) : pending (p :: ps) seen = pending ps seen :=
  List.filter_cons_of_neg (by simp [h])

theorem same_eq_false_of_pending (hq : q ∈ pending ps (p :: seen)) : p.same q = false := by
  have hnone := (List.mem_filter.mp hq).2
  rw [List.any_cons, Bool.not_or, Bool.and_eq_true, Bool.not_eq_true'] at hnone
  exact hnone.1

theorem mem_of_pending (hq : q ∈ pending ps (p :: seen)) : q ∈ p :: ps :=
  List.mem_cons_of_mem p ((pending_sublist ps (p :: seen)).subset hq)

theorem mem_pending_of_cons (hq : q ∈ pending (p :: ps) seen) (hsame : p.same q = false) :
    q ∈ pending ps (p :: seen) := by
  obtain ⟨hmem, hnone⟩ := List.mem_filter.mp hq
  rcases List.mem_cons.mp hmem with rfl | hmem
  · exact absurd hsame (by simp [Path.same])
  · refine List.mem_filter.mpr ⟨hmem, ?_⟩
    rw [List.any_cons, hsame, Bool.false_or]
    exact hnone

section Aside

variable {paths : Path → List Path} (h : ∀ a ∈ p :: ps, ∀ b ∈ p :: ps, a.same b = false →
  ∀ r ∈ paths a, (Backup.of b config.backupSuffix).Aside d r)
include h

/-- The modules after one leave its files alone, if each of them leaves those of the others alone. -/
theorem aside_of_later : ∀ r ∈ (pending ps (p :: seen)).flatMap paths, (Backup.of p config.backupSuffix).Aside d r := by
  intro r hr
  obtain ⟨q, hq, hr⟩ := List.mem_flatMap.mp hr
  have hsame : q.same p = false := BEq.comm.trans (same_eq_false_of_pending hq)
  exact h q (mem_of_pending hq) p List.mem_cons_self hsame r hr

/-- And it leaves theirs alone. -/
theorem aside_of_earlier (hq : q ∈ pending ps (p :: seen)) : ∀ r ∈ paths p, (Backup.of q config.backupSuffix).Aside d r :=
  h p List.mem_cons_self q (mem_of_pending hq) (same_eq_false_of_pending hq)

end Aside

theorem modules_writes (ps seen : List Path) (report : Report) :
    Edit.Steps (Changes ((pending ps seen).flatMap (Weave.writes config))) (modules config ps seen report) := by
  induction ps generalizing seen report with
  | nil => exact Edit.steps_pure _
  | cons p ps ih =>
    unfold modules
    cases hseen : seen.any (·.same p) with
    | true =>
      rw [pending_cons_seen hseen, if_pos rfl]
      exact ((Session.log_steps _).mono fun _ _ h => h.changes).bind fun _ => ih seen report
    | false =>
      rw [pending_cons hseen, if_neg Bool.false_ne_true, List.flatMap_cons]
      refine ((Weave.module_writes config p).mono fun _ _ h => h.mono (List.subset_append_left _ _)).bind fun outcome => ?_
      refine (ih (p :: seen) _).mono fun _ _ h => h.mono fun r hr => ?_
      obtain ⟨q, hq, hr⟩ := List.mem_flatMap.mp hr
      exact List.mem_append_right _ (List.mem_flatMap.mpr ⟨q, (pending_cons_sublist p ps seen).subset hq, hr⟩)

/-- What the probing of the modules at some paths leads to. -/
structure Writes (config : Config) (ps seen : List Path) (s s' : Logged Session) (files : List ProbedFile) : Prop where
  paths : (files.map ProbedFile.path).Sublist (pending ps seen)
  distinct : files.Pairwise fun f g => f.path.same g.path = false
  placed : ∀ f ∈ files, f.Placed config s.value.disk s'.value.disk
  others : ∀ p ∈ pending ps seen, ∃ q ∈ pending ps seen, q.same p = true ∧
    ((∃ f ∈ files, f.path = q) ∨ Unprobed config s.value.disk s'.value.disk q)
  numbers : s.value.ids.Numbers (((files.flatMap ProbedFile.marks).map Mark.probe).map PlacedProbe.id) s'.value.ids

variable {files : List ProbedFile} {t : Logged Session}

theorem Writes.mem_pending (h : Writes config ps seen s s' files) (hf : f ∈ files) : f.path ∈ pending ps seen :=
  h.paths.subset (List.mem_map_of_mem hf)

theorem Writes.append {here : List ProbedFile} (hseparate : Separate config (p :: ps) s.value.disk)
    (hseen : seen.any (·.same p) = false) (hhere : Writes config [p] seen s t here)
    (h : Writes config ps (p :: seen) t s' files) (hchanges : Changes (Weave.paths config p) s t)
    (hlater : Changes ((pending ps (p :: seen)).flatMap (Weave.paths config)) t s') :
    Writes config (p :: ps) seen s s' (here ++ files) := by
  have hpending : pending [p] seen = [p] := pending_cons hseen
  have hpath : ∀ f ∈ here, f.path = p := fun f hf => by
    have hmem := hhere.mem_pending hf
    rw [hpending] at hmem
    exact List.mem_singleton.mp hmem
  have hafter : ∀ r ∈ (pending ps (p :: seen)).flatMap (Weave.paths config),
      (Backup.of p config.backupSuffix).Aside t.value.disk r :=
    aside_of_later fun _ ha _ hb => (hseparate.within hchanges).aside ha hb
  have hbefore {q : Path} (hq : q ∈ pending ps (p :: seen)) : ∀ r ∈ Weave.paths config p,
      (Backup.of q config.backupSuffix).Aside s.value.disk r :=
    aside_of_earlier (fun _ ha _ hb => hseparate.aside ha hb) hq
  refine ⟨?_, ?_, ?_, ?_, ?_⟩
  · rw [List.map_append, pending_cons hseen]
    have hfirst := hhere.paths
    rw [hpending] at hfirst
    exact hfirst.append (h.paths.trans (pending_cons_sublist p ps seen))
  · refine List.pairwise_append.mpr ⟨hhere.distinct, h.distinct, fun f hf g hg => ?_⟩
    rw [hpath f hf]
    exact same_eq_false_of_pending (h.mem_pending hg)
  · refine List.forall_mem_append.mpr ⟨fun f hf => ?_, fun f hf => ?_⟩
    · refine (hhere.placed f hf).later hlater ?_
      rw [hpath f hf]
      exact hafter
    · exact (h.placed f hf).earlier hchanges (hbefore (h.mem_pending hf))
  · intro q hq
    cases hsame : p.same q with
    | true =>
      obtain ⟨q', hq', -, hor⟩ := hhere.others p (by rw [hpending]; exact List.mem_cons_self)
      rw [hpending] at hq'
      obtain rfl := List.mem_singleton.mp hq'
      refine ⟨q', by rw [pending_cons hseen]; exact List.mem_cons_self, hsame, ?_⟩
      rcases hor with ⟨f, hf, hpath⟩ | hor
      · exact .inl ⟨f, List.mem_append_left _ hf, hpath⟩
      · exact .inr (hor.later hlater hafter)
    | false =>
      obtain ⟨q', hq', hsame', hor⟩ := h.others q (mem_pending_of_cons hq hsame)
      refine ⟨q', by rw [pending_cons hseen]; exact List.mem_cons_of_mem p ((pending_cons_sublist p ps seen).subset hq'),
        hsame', ?_⟩
      rcases hor with ⟨f, hf, hpath⟩ | hor
      · exact .inl ⟨f, List.mem_append_right _ hf, hpath⟩
      · exact .inr (hor.earlier hchanges (hbefore hq'))
  · rw [List.flatMap_append, List.map_append, List.map_append]
    exact hhere.numbers.append h.numbers

/-- A run deals with the modules in a session of its own. -/
theorem run_eq_ok : run config ps s = .ok r s' ↔ ∃ u : Logged Session,
    modules config ps [] { sourceRoot := config.scope.root, hitsFile := config.hitsFile }
      ⟨{ disk := s.value.disk }, s.log⟩ = .ok r u ∧
    s' = ⟨{ s.value with disk := u.value.disk },
      u.log.push (.finished r.backups.length ps.length u.value.ids.taken r.files.length)⟩ := by
  unfold run report
  cases hmodules : modules config ps [] { sourceRoot := config.scope.root, hitsFile := config.hitsFile }
      ⟨{ disk := s.value.disk }, s.log⟩ with
  | ok r' u =>
    rw [edit_bind_of_ok hmodules]
    constructor
    · intro h
      cases h
      exact ⟨u, rfl, rfl⟩
    · rintro ⟨u', hu, rfl⟩
      cases hu
      rfl
  | error fault u =>
    rw [edit_bind_of_error hmodules]
    exact ⟨fun h => (by cases h), fun ⟨_, hu, _⟩ => (by cases hu)⟩

theorem run_ok (h : run config ps s = .ok r s') : ∃ start t, modules config ps [] start ⟨{ disk := s.value.disk }, s.log⟩ =
    .ok r t ∧ start.files = [] ∧ s'.value.disk = t.value.disk := by
  obtain ⟨t, hmodules, rfl⟩ := run_eq_ok.mp h
  exact ⟨_, t, hmodules, rfl, rfl⟩

/-- A disk with two modules, `/w/a.dll` and `/w/b.dll`, of one method each. -/
def twoModules : Disk where
  working := [['w']]
  entries := ([['w'], ['b', '.', 'd', 'l', 'l']], .file Backup.smallImage) ::
    ([['w'], ['b', '.', 'p', 'd', 'b']], .file Backup.smallSymbols) :: (Backup.smallDisk []).entries

end Run

end CilProbes
