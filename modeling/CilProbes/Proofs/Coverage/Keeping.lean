import CilProbes.Proofs.Coverage.Loading
import CilProbes.Proofs.Coverage.Lockstep

/-!
# What a run keeps of its modules

Of each file of a module a disk keeps a content (`Disk.kept?`): that of its copy, or its own while there is no copy. If the
files and copies of the modules of a list do not get in each other's way (`Run.Repeatable`), then a module that is dealt
with leaves what is kept of all of them as it was, and so does the list (`Run.modules_keep`): restoring moves what is
kept, and a module is probed after both of its files were copied.

The files of different modules may well be the same ones: modules may share a symbol file, and a module may be listed
under several paths.
-/

namespace CilProbes

open Session (Changes)

/-- The content that is kept of a file: that of its copy, if there is one. -/
def Disk.kept? (d : Disk) (file copy : Path) : Option (List UInt8) :=
  (d.content? copy).or (d.content? file)

namespace Disk

variable {d : Disk} {f g copy copy' : Path} {c : List UInt8}

theorem kept_iff : Backup.Kept d f copy c ↔ d.kept? f copy = some c := by
  unfold Backup.Kept kept?
  cases d.content? copy <;> simp

theorem kept?_of_noCopy (h : d.content? copy = none) : d.kept? f copy = d.content? f := by
  unfold kept?
  rw [h]
  rfl

theorem content?_congr (h : d.place? f = d.place? g) : d.content? f = d.content? g := by
  unfold content?
  rw [h]

theorem kept?_congr (h : d.place? f = d.place? g) (hcopy : d.place? copy = d.place? copy') :
    d.kept? f copy = d.kept? g copy' := by
  unfold kept?
  rw [content?_congr h, content?_congr hcopy]

end Disk

namespace Run

/-- The files of modules. -/
def files (ps : List Path) : List Path :=
  ps.flatMap fun p => [p, SymbolFile.pathFor p]

/-- No copy takes the place of a file of a module, and neither does the companion, where it is put or is, or a source. -/
structure Uncrossed (config : Config) (ps : List Path) (d : Disk) : Prop where
  copies : ∀ f ∈ files ps, ∀ g ∈ files ps, d.Apart (f.append config.backupSuffix) g
  givens : ∀ q ∈ Weave.givens config, ∀ f ∈ files ps, d.Apart q f ∧ d.Apart q (f.append config.backupSuffix)
  companions : ∀ p ∈ ps, ∀ q ∈ Weave.companionPath? config p, ∀ f ∈ files ps,
    d.Apart q f ∧ d.Apart q (f.append config.backupSuffix)

/--
Besides, copies are at one place only if they are of the same file, and the companion is put neither over a source nor
over itself.
-/
structure Repeatable (config : Config) (ps : List Path) (d : Disk) : Prop extends Uncrossed config ps d where
  distinct : ∀ f ∈ files ps, ∀ g ∈ files ps, ∀ l, d.place? (f.append config.backupSuffix) = some l →
    d.place? (g.append config.backupSuffix) = some l → d.place? f = d.place? g
  deployed : ∀ p ∈ ps, ∀ q ∈ Weave.companionCopy? config p, ∀ r ∈ Weave.givens config, d.Apart q r

/-- The disks keep the same content of every file of the modules, and have the same companion and sources. -/
structure KeepSame (config : Config) (ps : List Path) (d d' : Disk) : Prop where
  folders : d.SameFolders d'
  kept : ∀ f ∈ files ps, d'.kept? f (f.append config.backupSuffix) = d.kept? f (f.append config.backupSuffix)
  givens : ∀ q ∈ Weave.givens config, d'.content? q = d.content? q

variable {config : Config} {p f g : Path} {ps gs more : List Path} {d d' d'' : Disk} {s s' t : Logged Session}

theorem file_mem_files (hp : p ∈ ps) : p ∈ files ps :=
  List.mem_flatMap.mpr ⟨p, hp, List.mem_cons_self⟩

theorem symbols_mem_files (hp : p ∈ ps) : SymbolFile.pathFor p ∈ files ps :=
  List.mem_flatMap.mpr ⟨p, hp, List.mem_cons_of_mem _ List.mem_cons_self⟩

namespace KeepSame

theorem refl (config : Config) (ps : List Path) (d : Disk) : KeepSame config ps d d :=
  ⟨.refl d, fun _ _ => rfl, fun _ _ => rfl⟩

theorem symm (h : KeepSame config ps d d') : KeepSame config ps d' d :=
  ⟨h.folders.symm, fun f hf => (h.kept f hf).symm, fun q hq => (h.givens q hq).symm⟩

theorem trans (h : KeepSame config ps d d') (h' : KeepSame config ps d' d'') : KeepSame config ps d d'' :=
  ⟨h.folders.trans h'.folders, fun f hf => (h'.kept f hf).trans (h.kept f hf),
    fun q hq => (h'.givens q hq).trans (h.givens q hq)⟩

end KeepSame

namespace Repeatable

theorem folders (h : Repeatable config ps d) (hd : d.SameFolders d') : Repeatable config ps d' := by
  have hapart {p q : Path} (hpq : d.Apart p q) : d'.Apart p q := by
    unfold Disk.Apart
    rw [hd.place?_eq, hd.place?_eq]
    exact hpq
  refine ⟨⟨fun f hf g hg => hapart (h.copies f hf g hg), fun q hq f hf => (h.givens q hq f hf).imp hapart hapart,
    fun p hp q hq f hf => (h.companions p hp q hq f hf).imp hapart hapart⟩, fun f hf g hg l => ?_,
    fun p hp q hq r hr => hapart (h.deployed p hp q hq r hr)⟩
  simp only [hd.place?_eq]
  exact h.distinct f hf g hg l

/-- Two files are the same one with the same copy, or neither is in the way of the other or of its copy. -/
theorem same_or_apart (h : Repeatable config ps d) (hf : f ∈ files ps) (hg : g ∈ files ps) :
    d.place? f = d.place? g ∧ d.place? (f.append config.backupSuffix) = d.place? (g.append config.backupSuffix) ∨
    ∀ q ∈ [g, g.append config.backupSuffix], ∀ r ∈ [f, f.append config.backupSuffix], d.Apart q r := by
  by_cases hsame : d.place? f = d.place? g ∧
      d.place? (f.append config.backupSuffix) = d.place? (g.append config.backupSuffix)
  · exact .inl hsame
  · have hfiles : d.Apart g f := fun l hgl hfl =>
      hsame ⟨hfl.trans hgl.symm, Disk.place?_append hfl hgl config.backupSuffix⟩
    have hcopies : d.Apart (g.append config.backupSuffix) (f.append config.backupSuffix) := fun l hgl hfl =>
      hsame ⟨h.distinct f hf g hg l hfl hgl, hfl.trans hgl.symm⟩
    simp only [List.forall_mem_cons, List.not_mem_nil, IsEmpty.forall_iff, implies_true, and_true]
    exact .inr ⟨⟨hfiles, (h.copies f hf g hg).symm⟩, h.copies g hg f hf, hcopies⟩

/-- Where what is kept of the files that change is the same, it is the same of all files. -/
theorem kept_within (gs more : List Path) (h : Repeatable config ps d) (hgs : gs ⊆ files ps)
    (hmore : ∀ q ∈ more, ∀ f ∈ files ps, d.Apart q f ∧ d.Apart q (f.append config.backupSuffix))
    (hd : d.Within ((gs.flatMap fun g => [g, g.append config.backupSuffix]) ++ more) d')
    (hkept : ∀ g ∈ gs, d'.kept? g (g.append config.backupSuffix) = d.kept? g (g.append config.backupSuffix))
    (hf : f ∈ files ps) : d'.kept? f (f.append config.backupSuffix) = d.kept? f (f.append config.backupSuffix) := by
  by_cases hsame : ∃ g ∈ gs, d.place? f = d.place? g ∧
      d.place? (f.append config.backupSuffix) = d.place? (g.append config.backupSuffix)
  · obtain ⟨g, hg, hplace, hcopy⟩ := hsame
    rw [Disk.kept?_congr hplace hcopy, ← hkept g hg]
    refine Disk.kept?_congr ?_ ?_ <;> rwa [hd.place?_eq, hd.place?_eq]
  · have hapart : ∀ r ∈ [f, f.append config.backupSuffix],
        ∀ q ∈ (gs.flatMap fun g => [g, g.append config.backupSuffix]) ++ more, d.Apart q r := by
      intro r hr q hq
      rcases List.mem_append.mp hq with hq | hq
      · obtain ⟨g, hg, hq⟩ := List.mem_flatMap.mp hq
        rcases h.same_or_apart hf (hgs hg) with hplaces | hapart
        · exact absurd ⟨g, hg, hplaces⟩ hsame
        · exact hapart q hq r hr
      · have := hmore q hq f hf
        simp only [List.mem_cons, List.not_mem_nil, or_false] at hr
        rcases hr with rfl | rfl
        · exact this.1
        · exact this.2
    unfold Disk.kept?
    rw [hd.content?_eq (hapart f List.mem_cons_self),
      hd.content?_eq (hapart _ (List.mem_cons_of_mem _ List.mem_cons_self))]

theorem content?_givens (gs more : List Path) (h : Repeatable config ps d) (hgs : gs ⊆ files ps)
    (hmore : ∀ q ∈ more, ∀ r ∈ Weave.givens config, d.Apart q r)
    (hd : d.Within ((gs.flatMap fun g => [g, g.append config.backupSuffix]) ++ more) d') {r : Path}
    (hr : r ∈ Weave.givens config) : d'.content? r = d.content? r := by
  refine hd.content?_eq fun q hq => ?_
  rcases List.mem_append.mp hq with hq | hq
  · obtain ⟨g, hg, hq⟩ := List.mem_flatMap.mp hq
    have hapart := h.givens r hr g (hgs hg)
    simp only [List.mem_cons, List.not_mem_nil, or_false] at hq
    rcases hq with rfl | rfl
    · exact hapart.1.symm
    · exact hapart.2.symm
  · exact hmore q hq r hr

theorem keepSame (gs more : List Path) (h : Repeatable config ps d) (hgs : gs ⊆ files ps) (hp : p ∈ ps)
    (hmore : ∀ q ∈ more, q ∈ Weave.companionCopy? config p)
    (hd : d.Within ((gs.flatMap fun g => [g, g.append config.backupSuffix]) ++ more) d')
    (hkept : ∀ g ∈ gs, d'.kept? g (g.append config.backupSuffix) = d.kept? g (g.append config.backupSuffix)) :
    KeepSame config ps d d' where
  folders := hd.folders
  kept _ hf := h.kept_within gs more hgs (fun q hq => h.companions p hp q (Weave.companionCopy?_sub (hmore q hq))) hd hkept hf
  givens _ hr := h.content?_givens gs more hgs (fun q hq => h.deployed p hp q (hmore q hq)) hd hr

theorem aside (h : Repeatable config ps d) (hp : p ∈ ps) :
    ∀ q ∈ Weave.companionPath? config p, (Backup.of p config.backupSuffix).Aside d q := by
  intro q hq
  unfold Backup.Aside
  simp only [Backup.paths, Backup.of, List.forall_mem_cons, List.not_mem_nil, IsEmpty.forall_iff, implies_true, and_true]
  obtain ⟨hfile, hcopy⟩ := h.companions p hp q hq p (file_mem_files hp)
  exact ⟨hfile, hcopy, h.companions p hp q hq _ (symbols_mem_files hp)⟩

end Repeatable

theorem paths_of_eq_flatMap (p : Path) (suffix : String) :
    (Backup.of p suffix).paths = [p, SymbolFile.pathFor p].flatMap fun f => [f, f.append suffix] := by
  simp only [Backup.paths, Backup.of, List.flatMap_cons, List.flatMap_nil, List.cons_append, List.nil_append]

/-! ## Restoring -/

theorem restoreFile_within {found : Bool} {file copy : Path} (h : Backup.restoreFile file copy s = .ok found s') :
    s.value.disk.Within [file, copy] s'.value.disk :=
  ((Backup.restoreFile_steps (by simp) (by simp)).ok h).changes

section RestoreFile

variable {found : Bool} (h : Repeatable config ps s.value.disk) (hf : f ∈ files ps)
  (hrestore : Backup.restoreFile f (f.append config.backupSuffix) s = .ok found s')
include h hf hrestore

/-- A file is restored to the content that is kept of it. -/
theorem restoreFile_kept? :
    s'.value.disk.content? f = s.value.disk.kept? f (f.append config.backupSuffix) := by
  rcases Backup.restoreFile_cases hrestore with ⟨hcopy, rfl⟩ | ⟨d₁, d₂, hd₁, -, -⟩
  · exact (Disk.kept?_of_noCopy hcopy).symm
  · obtain ⟨c, hc, -⟩ := Disk.content?_copy hd₁ (h.copies f hf f hf)
    have hfile : s'.value.disk.content? f = some c := by
      rcases Backup.restoreFile_content? hrestore (h.copies f hf f hf) with hcopied | ⟨hcopy, -⟩
      · exact hcopied.trans hc
      · rw [hcopy] at hc
        cases hc
    rw [hfile, Disk.kept?, hc]
    rfl

theorem restoreFile_keeps : KeepSame config ps s.value.disk s'.value.disk := by
  have hwithin := restoreFile_within hrestore
  have hgs : [f] ⊆ files ps := List.cons_subset.mpr ⟨hf, List.nil_subset _⟩
  have hkept : ∀ g ∈ [f], s'.value.disk.kept? g (g.append config.backupSuffix) =
      s.value.disk.kept? g (g.append config.backupSuffix) := by
    refine List.forall_mem_singleton.mpr ?_
    rw [Disk.kept?_of_noCopy (Backup.restoreFile_noCopy hrestore), restoreFile_kept? h hf hrestore]
  refine ⟨hwithin.folders, fun g hg => ?_, fun r hr => ?_⟩
  · exact h.kept_within [f] [] hgs (fun _ hq => absurd hq List.not_mem_nil) hwithin hkept hg
  · exact h.content?_givens [f] [] hgs (fun _ hq => absurd hq List.not_mem_nil) hwithin hr

/-- Restoring a file makes no copies. -/
theorem noCopy_of_restoreFile (hg : g ∈ files ps)
    (hnone : s.value.disk.content? (g.append config.backupSuffix) = none) :
    s'.value.disk.content? (g.append config.backupSuffix) = none := by
  have hwithin := restoreFile_within hrestore
  rcases h.same_or_apart hg hf with ⟨-, hcopy⟩ | hapart
  · rw [← hwithin.place?_eq, ← hwithin.place?_eq] at hcopy
    rw [Disk.content?_congr hcopy]
    exact Backup.restoreFile_noCopy hrestore
  · rw [hwithin.content?_eq fun q hq => hapart q hq _ (List.mem_cons_of_mem _ List.mem_cons_self)]
    exact hnone

end RestoreFile

/-- Restoring a module leaves no copies of its files, and what is kept of all files as it was. -/
theorem restore_keeps {found : Bool} (h : Repeatable config ps s.value.disk) (hp : p ∈ ps)
    (hrestore : (Backup.of p config.backupSuffix).restore s = .ok found s') :
    KeepSame config ps s.value.disk s'.value.disk ∧
    ∀ f ∈ [p, SymbolFile.pathFor p], s'.value.disk.content? (f.append config.backupSuffix) = none := by
  obtain ⟨module, t, hmodule, h₁⟩ := edit_bind_ok.mp hrestore
  obtain ⟨symbols, s₂, hsymbols, h₂⟩ := edit_bind_ok.mp h₁
  cases h₂
  simp only [Backup.of] at hmodule hsymbols
  have hfirst := restoreFile_keeps h (file_mem_files hp) hmodule
  have ht := h.folders hfirst.folders
  refine ⟨hfirst.trans (restoreFile_keeps ht (symbols_mem_files hp) hsymbols), ?_⟩
  simp only [List.forall_mem_cons, List.not_mem_nil, IsEmpty.forall_iff, implies_true, and_true]
  exact ⟨noCopy_of_restoreFile ht (symbols_mem_files hp) hsymbols (file_mem_files hp) (Backup.restoreFile_noCopy hmodule),
    Backup.restoreFile_noCopy hsymbols⟩

/-! ## Modules -/

/-- A module file without copies, of different files, is restored. -/
theorem restored_of_noCopy {image symbols : List UInt8} (h : Repeatable config ps d) (hp : p ∈ ps)
    (hnone : ∀ f ∈ [p, SymbolFile.pathFor p], d.content? (f.append config.backupSuffix) = none)
    (himage : d.content? p = some image) (hsymbols : d.content? (SymbolFile.pathFor p) = some symbols)
    (hne : image ≠ symbols) : (Backup.of p config.backupSuffix).Restored image symbols d := by
  have hfile := file_mem_files hp
  have hsymbolsFile := symbols_mem_files hp
  simp only [List.forall_mem_cons, List.not_mem_nil, IsEmpty.forall_iff, implies_true, and_true] at hnone
  have hplace {q : Path} {c : List UInt8} (hq : d.content? q = some c) : ∃ l, d.place? q = some l := by
    obtain ⟨l, hl, -⟩ := Option.bind_eq_some_iff.mp hq
    exact ⟨l, hl⟩
  have hapart : ∀ q ∈ [p, p.append config.backupSuffix],
      ∀ r ∈ [SymbolFile.pathFor p, (SymbolFile.pathFor p).append config.backupSuffix], d.Apart q r := by
    rcases h.same_or_apart hsymbolsFile hfile with ⟨hsame, -⟩ | hapart
    · obtain ⟨l, hl⟩ := hplace himage
      exact absurd hl (Disk.apart_of_ne himage hsymbols hne |>.symm l (hsame.trans hl))
    · exact hapart
  simp only [List.forall_mem_cons, List.not_mem_nil, IsEmpty.forall_iff, implies_true, and_true] at hapart
  refine ⟨⟨⟨Backup.pairwise_paths.mpr ⟨⟨(h.copies p hfile p hfile).symm, ?_⟩, ?_, ?_⟩, hplace himage, ?_,
    .inr ⟨hnone.1, himage⟩, ?_⟩, himage, ?_⟩, hnone.1, ?_⟩
  all_goals simp only [Backup.symbols_of, Backup.symbolsCopy_of]
  · exact hapart.1
  · exact hapart.2
  · exact (h.copies _ hsymbolsFile _ hsymbolsFile).symm
  · exact hplace hsymbols
  · exact .inr ⟨hnone.2, hsymbols⟩
  · exact hsymbols
  · exact hnone.2

/-- Whatever is done to a restored module, what is kept stays. -/
theorem restored_keeps {outcome : Outcome} (h : Repeatable config ps s.value.disk) (hp : p ∈ ps)
    (hnone : ∀ f ∈ [p, SymbolFile.pathFor p], s.value.disk.content? (f.append config.backupSuffix) = none)
    (hrestored : Weave.restored config p (Backup.of p config.backupSuffix) s = .ok outcome s') :
    KeepSame config ps s.value.disk s'.value.disk := by
  have hwithin : Changes ((Backup.of p config.backupSuffix).paths ++ (Weave.companionCopy? config p).toList) s s' :=
    (Weave.restored_steps (List.subset_append_left _ _)
      fun q hq => List.mem_append_right _ (Option.mem_toList.mpr hq)).ok hrestored
  have hrun := hrestored
  unfold Weave.restored at hrun
  obtain ⟨isFile, s₁, hisFile, hrun⟩ := edit_bind_ok.mp hrun
  obtain ⟨hfound, rfl⟩ := Session.isFile_ok hisFile
  cases isFile with
  | false =>
    rw [Bool.not_false, if_pos rfl] at hrun
    rw [(Weave.skip_ok hrun).2]
    exact .refl config ps _
  | true =>
    rw [Bool.not_true, if_neg Bool.false_ne_true] at hrun
    obtain ⟨m, u, hload, -⟩ := edit_bind_ok.mp hrun
    obtain ⟨image, _, hread, -⟩ := edit_bind_ok.mp hload
    obtain ⟨himage, -⟩ := Session.read_content hread
    obtain ⟨symbols, hsymbols⟩ := Disk.isFile_iff.mp hfound.symm
    rw [Backup.symbols_of] at hsymbols
    have hbefore := restored_of_noCopy h hp hnone himage hsymbols (Weave.loadModule_ok hload himage hsymbols).ne
    have hafter := (Weave.restored_ok (s := s₁) rfl hbefore rfl (h.aside hp) hrestored).1
    have hwithin : s₁.value.disk.Within (([p, SymbolFile.pathFor p].flatMap fun f => [f, f.append config.backupSuffix]) ++
        (Weave.companionCopy? config p).toList) s'.value.disk := by
      rw [← paths_of_eq_flatMap]
      exact hwithin
    refine h.keepSame [p, SymbolFile.pathFor p] _ ?_ hp (fun q hq => Option.mem_toList.mp hq) hwithin ?_
    · exact List.cons_subset.mpr ⟨file_mem_files hp, List.cons_subset.mpr ⟨symbols_mem_files hp, List.nil_subset _⟩⟩
    · simp only [List.forall_mem_cons, List.not_mem_nil, IsEmpty.forall_iff, implies_true, and_true]
      have hkeeps := hafter.keepsSymbols
      have hkept := hbefore.keepsSymbols
      rw [Backup.symbols_of, Backup.symbolsCopy_of] at hkeeps hkept
      exact ⟨(Disk.kept_iff.mp hafter.keepsFile).trans (Disk.kept_iff.mp hbefore.keepsFile).symm,
        (Disk.kept_iff.mp hkeeps).trans (Disk.kept_iff.mp hkept).symm⟩

theorem module_keeps {outcome : Outcome} (h : Repeatable config ps s.value.disk) (hp : p ∈ ps)
    (hmodule : Weave.module config p s = .ok outcome s') : KeepSame config ps s.value.disk s'.value.disk := by
  obtain ⟨found, t, t', hrestore, hvalue, hrestored⟩ := Weave.exists_restored hmodule
  obtain ⟨hkeep, hnone⟩ := restore_keeps h hp hrestore
  rw [← hvalue] at hkeep hnone
  exact hkeep.trans (restored_keeps (h.folders hkeep.folders) hp hnone hrestored)

/-- A run over modules that are not in each other's way leaves what is kept of them as it was. -/
theorem modules_keep {qs seen : List Path} {report r : Report} (h : Repeatable config qs s.value.disk) (hsub : ps ⊆ qs)
    (hmodules : modules config ps seen report s = .ok r s') : KeepSame config qs s.value.disk s'.value.disk := by
  induction ps generalizing seen report s with
  | nil =>
    cases hmodules
    exact .refl config qs _
  | cons p ps ih =>
    obtain ⟨hp, hsub⟩ := List.cons_subset.mp hsub
    rcases modules_cons_ok.mp hmodules with ⟨-, hmodules⟩ | ⟨-, outcome, t, hmodule, hmodules⟩
    · exact ih (s := { s with log := s.log.push (.repeated p) }) h hsub hmodules
    · have hkeep := module_keeps h hp hmodule
      exact hkeep.trans (ih (h.folders hkeep.folders) hsub hmodules)

end Run

end CilProbes
