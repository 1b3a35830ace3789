import CilProbes.Proofs.Coverage.Keeping
import CilProbes.Proofs.Coverage.Runs

/-!
# Running again

A run over modules that are not in each other's way (`Run.Repeatable`) can be repeated: on the disk that it leaves, the
same run gives the same report and leaves the same disk (`Run.run_again`). The second run starts from probed files and
their copies, but the same is kept of them as before the first run. So each module is restored to the same files when
its turn comes, and from there both runs work in lockstep.

The copies of a module and of its symbol file may lead to one place, and the companion may be put over a source or over
itself. Then a run is not repeatable (`Run.run_again_collides`).
-/

namespace CilProbes

open Disk (AgreeOn ChangedAlike)

namespace Run

variable {config : Config} {p f : Path} {ps qs seen : List Path} {d e : Disk} {s s' t t' : Logged Session}

/-! ## Restoring again -/

theorem restoreFile_session {file copy : Path} {found : Bool} (h : Backup.restoreFile file copy s = .ok found s') :
    s'.value.sources = s.value.sources ∧ s'.value.ids = s.value.ids := by
  rcases Backup.restoreFile_cases h with ⟨-, rfl⟩ | ⟨d₁, d₂, -, -, rfl⟩ <;> exact ⟨rfl, rfl⟩

section Again

variable {found : Bool} (h : Repeatable config ps s.value.disk) (hsame : KeepSame config ps s.value.disk t.value.disk)
include h hsame

/-- A file that can be restored on one disk can be restored on every disk that keeps the same. -/
theorem exists_restoreFile (hf : f ∈ files ps)
    (hrestore : Backup.restoreFile f (f.append config.backupSuffix) s = .ok found s') :
    ∃ found' t', Backup.restoreFile f (f.append config.backupSuffix) t = .ok found' t' := by
  have ht := h.folders hsame.folders
  cases hcopy : t.value.disk.content? (f.append config.backupSuffix) with
  | none =>
    refine ⟨false, t, edit_bind_ok.mpr ⟨false, t, ?_, rfl⟩⟩
    exact congrArg (EStateM.Result.ok · t) (Disk.isFile_eq_false.mpr hcopy)
  | some c =>
    have hkept : s.value.disk.kept? f (f.append config.backupSuffix) = some c := by
      rw [← hsame.kept f hf, Disk.kept?, hcopy]
      rfl
    have hfile : s'.value.disk.content? f = some c := (restoreFile_kept? h hf hrestore).trans hkept
    obtain ⟨l, hl, -⟩ := Option.bind_eq_some_iff.mp hfile
    rw [(restoreFile_within hrestore).place?_eq, ← hsame.folders.place?_eq] at hl
    obtain ⟨found', t', ht', -⟩ := Backup.restoreFile_ok (.inl hcopy) ⟨l, hl⟩ (ht.copies f hf f hf)
    exact ⟨found', t', ht'⟩

theorem exists_restore (hp : p ∈ ps) (hrestore : (Backup.of p config.backupSuffix).restore s = .ok found s') :
    ∃ found' t', (Backup.of p config.backupSuffix).restore t = .ok found' t' := by
  obtain ⟨module, s₁, hmodule, hrestore⟩ := edit_bind_ok.mp hrestore
  obtain ⟨symbols, s₂, hsymbols, -⟩ := edit_bind_ok.mp hrestore
  simp only [Backup.of] at hmodule hsymbols
  obtain ⟨module', t₁, hmodule'⟩ := exists_restoreFile h hsame (file_mem_files hp) hmodule
  have hs₁ := restoreFile_keeps h (file_mem_files hp) hmodule
  have ht₁ := restoreFile_keeps (h.folders hsame.folders) (file_mem_files hp) hmodule'
  obtain ⟨symbols', t₂, hsymbols'⟩ := exists_restoreFile (h.folders hs₁.folders) (hs₁.symm.trans (hsame.trans ht₁))
    (symbols_mem_files hp) hsymbols
  refine ⟨module' || symbols', t₂, edit_bind_ok.mpr ⟨module', t₁, ?_, edit_bind_ok.mpr ⟨symbols', t₂, ?_, rfl⟩⟩⟩
  · exact hmodule'
  · simp only [Backup.of]
    exact hsymbols'

end Again

theorem restore_session {b : Backup} {found : Bool} (h : b.restore s = .ok found s') :
    s'.value.sources = s.value.sources ∧ s'.value.ids = s.value.ids := by
  obtain ⟨module, s₁, hmodule, h⟩ := edit_bind_ok.mp h
  obtain ⟨symbols, s₂, hsymbols, h⟩ := edit_bind_ok.mp h
  cases h
  obtain ⟨hsources, hids⟩ := restoreFile_session hmodule
  obtain ⟨hsources', hids'⟩ := restoreFile_session hsymbols
  exact ⟨hsources'.trans hsources, hids'.trans hids⟩

/-- Disks that keep the same agree on the files of a module that has no copies on either. -/
theorem KeepSame.agreeOn (hsame : KeepSame config ps d e) (hp : p ∈ ps)
    (hd : ∀ f ∈ [p, SymbolFile.pathFor p], d.content? (f.append config.backupSuffix) = none)
    (he : ∀ f ∈ [p, SymbolFile.pathFor p], e.content? (f.append config.backupSuffix) = none) :
    AgreeOn ((Backup.of p config.backupSuffix).paths ++ Weave.inputs config p) d e := by
  have hfile : ∀ f ∈ [p, SymbolFile.pathFor p], f ∈ files ps → e.content? f = d.content? f := fun f hf hmem => by
    rw [← Disk.kept?_of_noCopy (hd f hf), ← Disk.kept?_of_noCopy (he f hf), hsame.kept f hmem]
  have hmodule := hfile p List.mem_cons_self (file_mem_files hp)
  have hsymbols := hfile _ (List.mem_cons_of_mem _ List.mem_cons_self) (symbols_mem_files hp)
  have hcopies : ∀ f ∈ [p, SymbolFile.pathFor p],
      e.content? (f.append config.backupSuffix) = d.content? (f.append config.backupSuffix) :=
    fun f hf => (he f hf).trans (hd f hf).symm
  refine ⟨hsame.folders, List.forall_mem_append.mpr ⟨?_, ?_⟩⟩
  · simp only [Backup.paths, Backup.of, List.forall_mem_cons, List.not_mem_nil, IsEmpty.forall_iff, implies_true,
      and_true] at hcopies ⊢
    exact ⟨hmodule, hcopies.1, hsymbols, hcopies.2⟩
  · exact List.forall_mem_cons.mpr ⟨hmodule, List.forall_mem_cons.mpr ⟨hsymbols, hsame.givens⟩⟩

/-! ## Modules -/

/-- In sessions that keep the same, what is done to a module is the same. -/
theorem module_again {outcome : Outcome} (h : Repeatable config ps s.value.disk)
    (hsame : KeepSame config ps s.value.disk t.value.disk) (hsources : t.value.sources = s.value.sources)
    (hids : t.value.ids = s.value.ids) (hp : p ∈ ps) (hmodule : Weave.module config p s = .ok outcome s') :
    ∃ t', Weave.module config p t = .ok outcome t' ∧ Session.Alike s t s' t' := by
  obtain ⟨found, s₁, s₂, hrestore, hs₂, hrestored⟩ := Weave.exists_restored hmodule
  obtain ⟨found', t₁, hrestore'⟩ := exists_restore h hsame hp hrestore
  obtain ⟨t₂, ht₂, hmodule'⟩ := Weave.exists_module_eq hrestore'
  obtain ⟨hkeep, hnone⟩ := restore_keeps h hp hrestore
  obtain ⟨hkeep', hnone'⟩ := restore_keeps (h.folders hsame.folders) hp hrestore'
  have hagree := (hkeep.symm.trans (hsame.trans hkeep')).agreeOn hp hnone hnone'
  have halike : ChangedAlike s.value.disk t.value.disk s₁.value.disk t₁.value.disk :=
    ((Backup.restore_steps _).ok hrestore).changes.changedAlike ((Backup.restore_steps _).ok hrestore').changes
      (hagree.mono (List.subset_append_left _ _))
  obtain ⟨hsources₁, hids₁⟩ := restore_session hrestore
  obtain ⟨hsources₁', hids₁'⟩ := restore_session hrestore'
  have hrest : Session.Alike s t s₂ t₂ := by
    refine ⟨?_, ?_, ?_⟩ <;> rw [hs₂, ht₂]
    · exact halike
    · rw [hsources₁, hsources₁', hsources]
    · rw [hids₁, hids₁', hids]
  have hinputs : Session.Agree (Weave.inputs config p) s₂ t₂ := by
    refine ⟨?_, hrest.sources, hrest.ids⟩
    rw [hs₂, ht₂]
    exact hagree.mono (List.subset_append_right _ _)
  obtain ⟨t', ht', hlater⟩ := Weave.restored_lockstep.follow hinputs hrestored
  exact ⟨t', hmodule'.trans ht', hrest.trans hlater⟩

theorem modules_again {report r : Report} (h : Repeatable config qs s.value.disk)
    (hsame : KeepSame config qs s.value.disk t.value.disk) (hsources : t.value.sources = s.value.sources)
    (hids : t.value.ids = s.value.ids) (hsub : ps ⊆ qs) (hmodules : modules config ps seen report s = .ok r s') :
    ∃ t', modules config ps seen report t = .ok r t' ∧ Session.Alike s t s' t' := by
  induction ps generalizing seen report s t with
  | nil =>
    cases hmodules
    exact ⟨t, rfl, .refl _ _, hsources, hids⟩
  | cons p ps ih =>
    obtain ⟨hp, hsub⟩ := List.cons_subset.mp hsub
    rcases modules_cons_ok.mp hmodules with ⟨hseen, hmodules⟩ | ⟨hseen, outcome, s₁, hmodule, hmodules⟩
    · obtain ⟨t', ht', halike⟩ := ih (s := { s with log := s.log.push (.repeated p) })
        (t := { t with log := t.log.push (.repeated p) }) h hsame hsources hids hsub hmodules
      exact ⟨t', modules_cons_ok.mpr (.inl ⟨hseen, ht'⟩), halike.disks, halike.sources, halike.ids⟩
    · obtain ⟨t₁, ht₁, halike₁⟩ := module_again h hsame hsources hids hp hmodule
      have hkeep := module_keeps h hp hmodule
      have hkeep' := module_keeps (h.folders hsame.folders) hp ht₁
      obtain ⟨t', ht', halike⟩ := ih (h.folders hkeep.folders) (hkeep.symm.trans (hsame.trans hkeep'))
        halike₁.sources halike₁.ids hsub hmodules
      exact ⟨t', modules_cons_ok.mpr (.inr ⟨hseen, outcome, t₁, ht₁, ht'⟩), halike₁.trans halike⟩

/-! ## Runs -/

/--
A run is repeatable: on the disk that it leaves, the same run gives the same report and leaves the same disk, with the
copies, the probed modules and their symbol files as they are.
-/
theorem run_again {r : Report} (h : Repeatable config ps s.value.disk) (hrun : run config ps s = .ok r s')
    (hdisk : s'.value.disk.Same t.value.disk) :
    ∃ t', run config ps t = .ok r t' ∧ s'.value.disk.Same t'.value.disk := by
  obtain ⟨u, hmodules, rfl⟩ := run_eq_ok.mp hrun
  have hkeep : KeepSame config ps s.value.disk u.value.disk := modules_keep (s := ⟨{ disk := s.value.disk }, s.log⟩) h
    (List.Subset.refl ps) hmodules
  have hcontent : ∀ q, t.value.disk.content? q = u.value.disk.content? q := hdisk.content?_eq
  have hsame : KeepSame config ps u.value.disk t.value.disk :=
    ⟨hdisk.sameFolders, fun f _ => by unfold Disk.kept?; rw [hcontent, hcontent], fun q _ => hcontent q⟩
  obtain ⟨v, hmodules', halike⟩ := modules_again (s := ⟨{ disk := s.value.disk }, s.log⟩)
    (t := ⟨{ disk := t.value.disk }, t.log⟩) h (hkeep.trans hsame) rfl rfl (List.Subset.refl ps) hmodules
  refine ⟨_, run_eq_ok.mpr ⟨v, hmodules', rfl⟩, halike.disks.working.trans hdisk.working, fun l => ?_⟩
  rcases halike.disks.entries l with hboth | ⟨-, hkept⟩
  · exact hboth
  · exact hkept.trans (hdisk.entries l)

/-! ## Small runs -/

open Backup (apart_of_place?_ne smallConfig smallImage smallSymbols)

theorem uncrossed_of_places (hcopies : ∀ f ∈ files ps, ∀ g ∈ files ps,
      d.place? (f.append config.backupSuffix) ≠ d.place? g)
    (hothers : ∀ q ∈ Weave.givens config ++ ps.flatMap fun p => (Weave.companionPath? config p).toList,
      ∀ f ∈ files ps, d.place? q ≠ d.place? f ∧ d.place? q ≠ d.place? (f.append config.backupSuffix)) :
    Uncrossed config ps d where
  copies f hf g hg := apart_of_place?_ne (hcopies f hf g hg)
  givens q hq f hf :=
    (hothers q (List.mem_append_left _ hq) f hf).imp apart_of_place?_ne apart_of_place?_ne
  companions p hp q hq f hf := by
    have hmem : q ∈ ps.flatMap fun p => (Weave.companionPath? config p).toList :=
      List.mem_flatMap.mpr ⟨p, hp, Option.mem_toList.mpr hq⟩
    exact (hothers q (List.mem_append_right _ hmem) f hf).imp apart_of_place?_ne apart_of_place?_ne

/-- A disk with the modules `/w/a.dll` and `/w/b.dll`, and the companion `/w/c/h`. -/
def companionDisk : Disk where
  working := [['w']]
  entries := ([['w'], ['c']], .folder) :: ([['w'], ['c'], ['h']], .file [1]) :: twoModules.entries

def companionConfig : Config :=
  { smallConfig "~" with companion := some ⟨"/w/c/h"⟩ }

/--
A second run over two modules with a companion, one of them listed by two paths, reports the same probes again and
changes nothing.
-/
theorem run_again_companion : ∃ (r : Report) (s' t' : Logged Session),
    Repeatable companionConfig [⟨"/w/a.dll"⟩, ⟨"/w/b.dll"⟩, ⟨"a.dll"⟩] companionDisk ∧
    run companionConfig [⟨"/w/a.dll"⟩, ⟨"/w/b.dll"⟩, ⟨"a.dll"⟩] ⟨{ disk := companionDisk }, #[]⟩ = .ok r s' ∧
    r.probes.length = 3 ∧ s'.value.disk.content? ⟨"/w/a.dll~"⟩ = some smallImage ∧
    run companionConfig [⟨"/w/a.dll"⟩, ⟨"/w/b.dll"⟩, ⟨"a.dll"⟩] s' = .ok r t' ∧
    s'.value.disk.Same t'.value.disk := by
  have hrepeatable : Repeatable companionConfig [⟨"/w/a.dll"⟩, ⟨"/w/b.dll"⟩, ⟨"a.dll"⟩] companionDisk := by
    refine ⟨uncrossed_of_places (by decide +kernel) (by decide +kernel), ?_, ?_⟩
    · have hplaces : ∀ f ∈ files [⟨"/w/a.dll"⟩, ⟨"/w/b.dll"⟩, ⟨"a.dll"⟩], ∀ g ∈ files [⟨"/w/a.dll"⟩, ⟨"/w/b.dll"⟩, ⟨"a.dll"⟩],
          companionDisk.place? (f.append "~") = companionDisk.place? (g.append "~") →
            companionDisk.place? f = companionDisk.place? g := by decide +kernel
      exact fun f hf g hg l hfl hgl => hplaces f hf g hg (hfl.trans hgl.symm)
    · have hplaces : ∀ p ∈ [⟨"/w/a.dll"⟩, ⟨"/w/b.dll"⟩, (⟨"a.dll"⟩ : Path)],
          ∀ q ∈ (Weave.companionCopy? companionConfig p).toList, ∀ r ∈ Weave.givens companionConfig,
            companionDisk.place? q ≠ companionDisk.place? r := by decide +kernel
      exact fun p hp q hq r hr => apart_of_place?_ne (hplaces p hp q (Option.mem_toList.mpr hq) r hr)
  obtain ⟨r, s', hrun, hlen, hcopy⟩ : ∃ r s',
      run companionConfig [⟨"/w/a.dll"⟩, ⟨"/w/b.dll"⟩, ⟨"a.dll"⟩] ⟨{ disk := companionDisk }, #[]⟩ = .ok r s' ∧
      r.probes.length = 3 ∧ s'.value.disk.content? ⟨"/w/a.dll~"⟩ = some smallImage := by
    decide +kernel
  obtain ⟨t', hagain, hsame⟩ := run_again hrepeatable hrun (.refl _)
  exact ⟨r, s', t', hrepeatable, hrun, hlen, hcopy, hagain, hsame⟩

/-- A run ends well, and one after it does not, or reports otherwise, or leaves something else at the place. -/
def unrepeated (config : Config) (ps : List Path) (d : Disk) (l : Location) : Bool :=
  match run config ps ⟨{ disk := d }, #[]⟩ with
  | .ok r s =>
    match run config ps s with
    | .ok r' t => r' != r || t.value.disk.get? l != s.value.disk.get? l
    | .error _ _ => true
  | .error _ _ => false

theorem exists_unrepeated {l : Location} (h : unrepeated config ps d l = true) : ∃ r s',
    run config ps ⟨{ disk := d }, #[]⟩ = .ok r s' ∧
    ¬∃ t', run config ps s' = .ok r t' ∧ s'.value.disk.Same t'.value.disk := by
  unfold unrepeated at h
  cases hrun : run config ps ⟨{ disk := d }, #[]⟩ with
  | error fault s' =>
    rw [hrun] at h
    cases h
  | ok r s' =>
    refine ⟨r, s', rfl, fun ⟨t', hagain, hsame⟩ => ?_⟩
    rw [hrun] at h
    dsimp only at h
    rw [hagain] at h
    simp [hsame.entries l] at h

/-- The companion is put over the source of a module that comes before. -/
def overSource : Config :=
  { smallConfig "~" with companion := some ⟨"c/d"⟩ }

def overSourceDisk : Disk where
  working := [['w']]
  entries := ([['w'], ['c']], .folder) :: ([['w'], ['c'], ['d']], .file []) ::
    ([['w'], ['s'], ['b', '.', 'd', 'l', 'l']], .file smallImage) ::
    ([['w'], ['s'], ['b', '.', 'p', 'd', 'b']], .file smallSymbols) :: (Backup.smallDisk []).entries

/-- The companion is put over itself after it was put beside another module. -/
def overItself : Config :=
  { smallConfig "~" with companion := some ⟨"./h"⟩ }

def overItselfDisk : Disk where
  working := [['w']]
  entries := ([['w'], ['h']], .file [1]) :: ([['w'], ['x']], .folder) ::
    ([['w'], ['x'], ['b', '.', 'd', 'l', 'l']], .file smallImage) ::
    ([['w'], ['x'], ['b', '.', 'p', 'd', 'b']], .file smallSymbols) :: (Backup.smallDisk []).entries

/--
Runs that are not repeatable: the copies of a module and its symbols are at one place; the companion is put over a
source; the companion is put over itself.
-/
theorem run_again_collides :
    (Uncrossed (smallConfig "d/../x") [⟨"/w/a.dll"⟩] (Backup.smallDisk ["a.dlld", "a.pdbd"]) ∧
      ∃ r s', run (smallConfig "d/../x") [⟨"/w/a.dll"⟩] ⟨{ disk := Backup.smallDisk ["a.dlld", "a.pdbd"] }, #[]⟩ = .ok r s' ∧
        ¬∃ t', run (smallConfig "d/../x") [⟨"/w/a.dll"⟩] s' = .ok r t' ∧ s'.value.disk.Same t'.value.disk) ∧
    (Uncrossed overSource [⟨"/w/a.dll"⟩, ⟨"/w/s/b.dll"⟩] overSourceDisk ∧
      ∃ r s', run overSource [⟨"/w/a.dll"⟩, ⟨"/w/s/b.dll"⟩] ⟨{ disk := overSourceDisk }, #[]⟩ = .ok r s' ∧
        ¬∃ t', run overSource [⟨"/w/a.dll"⟩, ⟨"/w/s/b.dll"⟩] s' = .ok r t' ∧
          s'.value.disk.Same t'.value.disk) ∧
    (Uncrossed overItself [⟨"/w/x/b.dll"⟩, ⟨"/w/a.dll"⟩] overItselfDisk ∧
      ∃ r s', run overItself [⟨"/w/x/b.dll"⟩, ⟨"/w/a.dll"⟩] ⟨{ disk := overItselfDisk }, #[]⟩ = .ok r s' ∧
        ¬∃ t', run overItself [⟨"/w/x/b.dll"⟩, ⟨"/w/a.dll"⟩] s' = .ok r t' ∧
          s'.value.disk.Same t'.value.disk) := by
  have hcopies : unrepeated (smallConfig "d/../x") [⟨"/w/a.dll"⟩] (Backup.smallDisk ["a.dlld", "a.pdbd"]) [] = true := by
    decide +kernel
  have hsource : unrepeated overSource [⟨"/w/a.dll"⟩, ⟨"/w/s/b.dll"⟩] overSourceDisk [] = true := by
    decide +kernel
  have hitself : unrepeated overItself [⟨"/w/x/b.dll"⟩, ⟨"/w/a.dll"⟩] overItselfDisk [['w'], ['x'], ['h']] = true := by
    decide +kernel
  refine ⟨⟨uncrossed_of_places ?_ ?_, exists_unrepeated hcopies⟩, ⟨uncrossed_of_places ?_ ?_, exists_unrepeated hsource⟩,
    ⟨uncrossed_of_places ?_ ?_, exists_unrepeated hitself⟩⟩ <;> decide +kernel

end Run

end CilProbes
