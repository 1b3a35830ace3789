import CilProbes.Proofs.Coverage.Probed

/-!
# Loading modules around probing

A module is loaded from wherever its files are (`Module.LoadedFrom.loadModule`). When a module was probed, its pristine
files were there to be loaded after its backup was restored, and the files of the result are there now
(`Weave.exists_rewrites`), whatever else the paths of the backup and of the companion lead to.
-/

namespace CilProbes

namespace Module

variable {m : Module} {image symbols data : List UInt8} {p : Path} {s : Logged Session}

theorem LoadedFrom.loadModule (h : m.LoadedFrom image symbols) (himage : s.value.disk.content? p = some image)
    (hsymbols : s.value.disk.content? (SymbolFile.pathFor p) = some symbols) :
    ∃ s', Session.loadModule p s = .ok m s' ∧ s'.value = s.value := by
  obtain ⟨fresh, file, hfresh, hfile, hparsed, rfl⟩ := h.exists_attached
  have hread {q : Path} {c : List UInt8} {t : Logged Session} (hc : t.value.disk.content? q = some c) :
      Session.read q t = .ok c t := Session.ask_ok.mpr ⟨Disk.read_ok.mpr hc, rfl⟩
  obtain ⟨t, ht, hload⟩ : ∃ t : Logged Session, t.value = s.value ∧ Module.load image s = .ok fresh t :=
    ⟨{ s with log := s.log.push (.parsed fresh.name fresh.types.length) }, rfl, load_ok.mpr ⟨hfresh, rfl⟩⟩
  obtain ⟨log, hattach⟩ := attach_ok hparsed.toWellFormed fresh t.log
  have hother : Edit.onOther fresh (attach file) t = .ok ((), fresh.attached file) { t with log } :=
    edit_onOther_ok.mpr ⟨hattach, rfl⟩
  rw [← ht] at hsymbols
  have hisFile : Session.isFile (SymbolFile.pathFor p) t = .ok true t :=
    congrArg (EStateM.Result.ok · t) (Disk.isFile_iff.mpr ⟨symbols, hsymbols⟩)
  have hfile' : (Edit.ofExcept (SymbolFile.parse symbols) : Edit (Logged Session) SymbolFile) t = .ok file t := by
    rw [hfile]
    rfl
  refine ⟨{ t with log }, ?_, ht⟩
  unfold Session.loadModule
  refine edit_bind_ok.mpr ⟨image, s, hread himage, edit_bind_ok.mpr ⟨fresh, t, hload,
    edit_bind_ok.mpr ⟨true, t, hisFile, ?_⟩⟩⟩
  rw [if_pos rfl]
  refine edit_bind_ok.mpr ⟨symbols, t, hread hsymbols, edit_bind_ok.mpr ⟨file, t, hfile', ?_⟩⟩
  exact edit_bind_ok.mpr ⟨((), fresh.attached file), { t with log }, hother, rfl⟩

/-- An image is no symbol file. -/
theorem not_parse_both {file : SymbolFile} (h : parse data = .ok m) (hfile : SymbolFile.parse data = .ok file) : False := by
  obtain ⟨_, h⟩ := Reader.run_ok h
  obtain ⟨_, hfile⟩ := Reader.run_ok hfile
  obtain ⟨found, c, hfound, h⟩ := edit_bind_ok.mp h
  obtain ⟨found', c', hfound', hfile⟩ := edit_bind_ok.mp hfile
  rw [hfound] at hfound'
  cases hfound'
  by_cases hmagic : found = Image.magic
  · rw [if_pos (by rw [hmagic]; decide)] at hfile
    cases hfile
  · rw [if_pos hmagic] at h
    cases h

theorem LoadedFrom.ne (h : m.LoadedFrom image symbols) : image ≠ symbols := by
  rintro rfl
  obtain ⟨_, _, _, _, hparse, hfile, _⟩ := h
  exact not_parse_both hparse hfile

end Module

/-- Files with different contents are at different places. -/
theorem Disk.apart_of_ne {d : Disk} {p q : Path} {c c' : List UInt8} (hp : d.content? p = some c)
    (hq : d.content? q = some c') (hne : c ≠ c') : d.Apart p q := by
  intro l hpl hql
  unfold Disk.content? at hp hq
  rw [hpl] at hp
  rw [hql] at hq
  exact hne (Option.some_inj.mp (hp.symm.trans hq))

namespace Session

variable {m : Module} {p : Path} {s s' : Logged Session}

/-- What saving a module with documents writes, if its files lie at different places. -/
theorem saveModule_ok (h : saveModule p m s = .ok () s') (hdocuments : m.documents.isSome)
    (hapart : s.value.disk.Apart p (SymbolFile.pathFor p)) : ∃ files saved, m.encode = .ok files saved ∧
      s'.value.disk.content? p = some files.image ∧ s'.value.disk.content? (SymbolFile.pathFor p) = files.symbols := by
  obtain ⟨⟨files, saved⟩, s₁, hsave, h₁⟩ := edit_bind_ok.mp h
  obtain ⟨hencode, hvalue⟩ := save_ok hsave
  obtain ⟨data, hdata⟩ := Weave.symbols_of_encode hencode hdocuments
  obtain ⟨_, s₂, hwrite, h₂⟩ := edit_bind_ok.mp h₁
  rw [hdata] at h₂
  obtain ⟨d₁, hd₁, rfl⟩ := change_ok.mp hwrite
  obtain ⟨d₂, hd₂, rfl⟩ := change_ok.mp h₂
  rw [hvalue] at hd₁
  refine ⟨files, saved, hencode, ?_, ?_⟩
  · have hother := (Disk.within_write hd₁).apart hapart
    exact ((Disk.within_write hd₂).content?_eq (List.forall_mem_singleton.mpr hother.symm)).trans (Disk.content?_write hd₁)
  · rw [hdata]
    exact Disk.content?_write hd₂

end Session

namespace Weave

open Session (Changes)

variable {config : Config} {p : Path} {image symbols : List UInt8} {s s' : Logged Session} {m : Module} {b backup : Backup}
  {companion : Option Path} {placed : List PlacedProbe} {documents : List String}

/-- A module that may be probed is written to its files, which lie at different places. -/
theorem pristine_ok (h : pristine config p (Backup.of p config.backupSuffix) documents.toArray m s =
      .ok (.probed backup companion placed) s') (hm : m.LoadedFrom image symbols)
    (hdocuments : m.documents = some documents) (hsource : hasSource config.scope documents.toArray m = true)
    (hmarker : m.hasAttribute config.markerAttribute = false) (hapart : s.value.disk.Apart p (SymbolFile.pathFor p)) :
    ∃ before after files, Rewrites config p image symbols before after placed files ∧
      s'.value.disk.content? p = some files.image ∧ s'.value.disk.content? (SymbolFile.pathFor p) = files.symbols := by
  obtain ⟨_, s₁, hcreate, h₁⟩ := edit_bind_ok.mp h
  obtain ⟨_, s₂, hdeploy, h₂⟩ := edit_bind_ok.mp h₁
  obtain ⟨prepared, s₃, hprepare, h₃⟩ := edit_bind_ok.mp h₂
  obtain ⟨hprepared, rfl⟩ := ofExcept_ok hprepare
  obtain ⟨⟨woven, placed'⟩, s₄, htypes, h₄⟩ := edit_bind_ok.mp h₃
  obtain ⟨_, s₅, hsave, h₅⟩ := edit_bind_ok.mp h₄
  obtain ⟨_, s₆, hlog, h₆⟩ := edit_bind_ok.mp h₅
  cases hlog
  cases h₆
  have hdeployed : Edit.Steps (Session.Frame (companionPath? config p).toList) (deployCompanion config p) :=
    deployCompanion_steps fun q hq => Option.mem_toList.mpr (companionCopy?_sub hq)
  have hwoven : Changes ([] : List Path) s₃ s₄ := (types_steps _).ok htypes
  have hapart₁ := ((Backup.create_steps _).ok hcreate).changes.apart hapart
  have hapart₄ := hwoven.apart ((hdeployed.ok hdeploy).changes.apart hapart₁)
  have hsome : ({ (importApi config prepared).2 with types := woven } : Module).documents.isSome := by
    rw [documents_woven hdocuments hprepared]
    rfl
  obtain ⟨files, saved, hencode, himage, hsymbols⟩ := Session.saveModule_ok hsave hsome hapart₄
  exact ⟨s₃, s₄, files, ⟨m, documents, prepared, woven, saved, hm, hdocuments, hsource, hmarker, hprepared, htypes,
    hencode⟩, himage, hsymbols⟩

/-- When a module was probed, its files are those of what was made from the restored ones. -/
theorem exists_rewrites (h : module config p s = .ok (.probed backup companion placed) s') :
    ∃ found t image symbols before after files, (Backup.of p config.backupSuffix).restore s = .ok found t ∧
      t.value.disk.content? p = some image ∧ t.value.disk.content? (SymbolFile.pathFor p) = some symbols ∧
      Rewrites config p image symbols before after placed files ∧ s'.value.disk.content? p = some files.image ∧
      s'.value.disk.content? (SymbolFile.pathFor p) = files.symbols := by
  obtain ⟨found, t, t', hrestore, hvalue, h⟩ := exists_restored h
  obtain ⟨isFile, t₁, hisFile, h⟩ := edit_bind_ok.mp h
  obtain ⟨hfound, rfl⟩ := Session.isFile_ok hisFile
  cases isFile with
  | false =>
    rw [Bool.not_false, if_pos rfl] at h
    cases (skip_ok h).1
  | true =>
    rw [Bool.not_true, if_neg Bool.false_ne_true] at h
    obtain ⟨m, u, hload, h⟩ := edit_bind_ok.mp h
    obtain ⟨image, t₂, hread, -⟩ := edit_bind_ok.mp hload
    obtain ⟨himage, -⟩ := Session.read_content hread
    obtain ⟨symbols, hsymbols⟩ := Disk.isFile_iff.mp hfound.symm
    rw [Backup.symbols_of] at hsymbols
    have hm := loadModule_ok hload himage hsymbols
    have hu : Changes ([] : List Path) t₁ u := ((Session.loadModule_steps p).ok hload).changes
    have hapart := hu.apart (Disk.apart_of_ne himage hsymbols hm.ne)
    rw [hvalue] at himage hsymbols
    cases hdocuments : m.documents with
    | none =>
      rw [hdocuments] at h
      cases (skip_ok h).1
    | some documents =>
      rw [hdocuments] at h
      dsimp only at h
      split at h
      · cases (skip_ok h).1
      · next hsource =>
        split at h
        · cases h
        · next hmarker =>
          have hsource' : hasSource config.scope documents.toArray m = true := by simpa using hsource
          obtain ⟨before, after, files, hrewrites⟩ := pristine_ok h hm hdocuments hsource'
            (Bool.eq_false_iff.mpr hmarker) hapart
          exact ⟨found, t, image, symbols, before, after, files, hrestore, himage, hsymbols, hrewrites⟩

end Weave

end CilProbes
