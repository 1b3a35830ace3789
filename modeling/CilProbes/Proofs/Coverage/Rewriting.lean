import CilProbes.Proofs.Coverage.Preparing
import CilProbes.Proofs.Coverage.Weaving

/-!
# What probing writes

Probing starts from the pristine files, if a backup keeps them, and leaves them kept (`Weave.module_meets`). If it
succeeds, what it wrote is made from the pristine files (`Weave.Rewrites`). If it skips the module or fails, then the
files are pristine.
-/

namespace CilProbes

/-- The module is in the files with the given contents. -/
def Module.LoadedFrom (m : Module) (image symbols : List UInt8) : Prop :=
  ∃ fresh file log log', Module.parse image = .ok fresh ∧ SymbolFile.parse symbols = .ok file ∧
    Module.attach file ⟨fresh, log⟩ = .ok () ⟨m, log'⟩

namespace Weave

open Session (Changes Frame)

/-- The context in which probes are placed in a module. -/
def contextOf (config : Config) (p : Path) (documents : List String) (m : Module) (api : ProbeApi) : Context where
  scope := config.scope
  documents := documents.toArray
  assembly := p.stem?.getD m.name
  api

/--
A module in scope and without marker is loaded, prepared and woven, and the files are those of the result. The numbers
of its probes are taken from one state of the session to another.
-/
def Rewrites (config : Config) (p : Path) (image symbols : List UInt8) (before after : Logged Session)
    (placed : List PlacedProbe) (files : Image.Files) : Prop :=
  ∃ m documents prepared woven saved, m.LoadedFrom image symbols ∧ m.documents = some documents ∧
    hasSource config.scope documents.toArray m = true ∧ m.hasAttribute config.markerAttribute = false ∧
    prepareRecording config (m.addAttribute config.markerAttribute) = .ok prepared ∧
    Weave.types (contextOf config p documents (importApi config prepared).2 (importApi config prepared).1)
      (importApi config prepared).2.types before = .ok (woven, placed) after ∧
    Module.encode { (importApi config prepared).2 with types := woven } = .ok files saved

variable {config : Config} {p : Path} {image symbols : List UInt8} {s s' : Logged Session} {m : Module} {b : Backup}

theorem loadModule_ok (h : Session.loadModule p s = .ok m s') (himage : s.value.disk.content? p = some image)
    (hsymbols : s.value.disk.content? (SymbolFile.pathFor p) = some symbols) : m.LoadedFrom image symbols := by
  obtain ⟨data, s₁, hread, h₁⟩ := edit_bind_ok.mp h
  obtain ⟨hdata, rfl⟩ := Session.read_content hread
  rw [himage] at hdata
  cases hdata
  obtain ⟨fresh, s₂, hload, h₂⟩ := edit_bind_ok.mp h₁
  obtain ⟨hparse, hs₂⟩ := Module.load_ok.mp hload
  have hvalue : s₂.value = s₁.value := by rw [hs₂]
  obtain ⟨found, s₃, hfound, h₃⟩ := edit_bind_ok.mp h₂
  have hisFile : s₂.value.disk.isFile (SymbolFile.pathFor p) = true := by
    rw [hvalue]
    exact Disk.isFile_iff.mpr ⟨symbols, hsymbols⟩
  have hfound' : Session.isFile (SymbolFile.pathFor p) s₂ = .ok true s₂ := congrArg (EStateM.Result.ok · s₂) hisFile
  rw [hfound'] at hfound
  cases hfound
  rw [if_pos rfl] at h₃
  obtain ⟨data, s₄, hread', h₄⟩ := edit_bind_ok.mp h₃
  obtain ⟨hdata, rfl⟩ := Session.read_content hread'
  rw [hvalue, hsymbols] at hdata
  cases hdata
  obtain ⟨file, s₅, hfile, h₅⟩ := edit_bind_ok.mp h₄
  obtain ⟨hfile', rfl⟩ := ofExcept_ok hfile
  obtain ⟨⟨_, attached⟩, s₆, hattach, h₆⟩ := edit_bind_ok.mp h₅
  cases h₆
  exact ⟨fresh, file, _, _, hparse, hfile', (edit_onOther_ok.mp hattach).1⟩

/-! ## Saving -/

theorem symbols_of_encode {files : Image.Files} {m' : Module} (h : m.encode = .ok files m')
    (hdocuments : m.documents.isSome) : ∃ data, files.symbols = some data := by
  obtain ⟨_, _, _, symbols, -, -, -, hsymbols, rfl⟩ := Module.encode_steps.mp h
  obtain ⟨documents, hdocuments⟩ := Option.isSome_iff_exists.mp hdocuments
  rw [hdocuments] at hsymbols
  obtain ⟨data, -, h⟩ := map_ok.mp hsymbols
  exact ⟨data, h.symm⟩

theorem documents_woven {documents : List String} {prepared : Module} {woven : List TypeDef}
    (hdocuments : m.documents = some documents)
    (h : prepareRecording config (m.addAttribute config.markerAttribute) = .ok prepared) :
    ({ (importApi config prepared).2 with types := woven } : Module).documents = some documents := by
  show (importApi config prepared).2.documents = _
  rw [documents_importApi, documents_prepareRecording h]
  exact hdocuments

theorem Rewrites.exists_symbols {before after : Logged Session} {placed : List PlacedProbe} {files : Image.Files}
    (h : Rewrites config p image symbols before after placed files) : ∃ data, files.symbols = some data := by
  obtain ⟨m, documents, prepared, woven, saved, -, hdocuments, -, -, hprepared, -, hencode⟩ := h
  refine symbols_of_encode hencode ?_
  rw [documents_woven hdocuments hprepared]
  rfl

/-- A module that has copies can be written over, and the copies still hold what it was. -/
theorem exists_overwrite (h : b.Copied image symbols d) (newImage newSymbols : List UInt8) :
    ∃ d₁ d₂, d.write b.file newImage = .ok d₁ ∧ d₁.write b.symbols newSymbols = .ok d₂ ∧ b.Safe image symbols d₂ ∧
      d₂.content? b.file = some newImage ∧ d₂.content? b.symbols = some newSymbols := by
  obtain ⟨⟨hfileCopy, hfileSymbols, hfileSymbolsCopy⟩, ⟨hcopySymbols, hcopies⟩, hsymbolsCopy⟩ :=
    Backup.pairwise_paths.mp h.apart
  obtain ⟨l, hl⟩ := h.filePlace
  obtain ⟨d₁, hd₁⟩ := Disk.exists_write hl newImage
  have hwithin₁ := Disk.within_write hd₁
  obtain ⟨k, hk⟩ := h.symbolsPlace
  rw [← hwithin₁.place?_eq] at hk
  obtain ⟨d₂, hd₂⟩ := Disk.exists_write hk newSymbols
  have hwithin₂ := Disk.within_write hd₂
  have hwithin : d.Within [b.file, b.symbols] d₂ := (hwithin₁.mono (by simp)).trans (hwithin₂.mono (by simp))
  have hcopyContent : d₂.content? b.copy = some image := by
    rw [hwithin.content?_eq (by simp [hfileCopy, hcopySymbols.symm])]
    exact h.copyContent
  have hsymbolsCopyContent : d₂.content? b.symbolsCopy = some symbols := by
    rw [hwithin.content?_eq (by simp [hfileSymbolsCopy, hsymbolsCopy])]
    exact h.symbolsCopyContent
  refine ⟨d₁, d₂, hd₁, hd₂, ⟨Backup.pairwise_within h.apart hwithin, ?_, ?_, .inl hcopyContent,
    .inl hsymbolsCopyContent⟩, ?_, Disk.content?_write hd₂⟩
  · rw [hwithin.place?_eq]
    exact h.filePlace
  · rw [hwithin.place?_eq]
    exact h.symbolsPlace
  · rw [hwithin₂.content?_eq (by simpa using (hwithin₁.apart hfileSymbols).symm)]
    exact Disk.content?_write hd₁

/-- Saving a module fails before anything is written, if its files are there to be written. -/
theorem saveModule_meets (hfile : b.file = p) (hsymbols : b.symbols = SymbolFile.pathFor p)
    (h : b.Copied image symbols s.value.disk) (hdocuments : m.documents.isSome) :
    Edit.Meets (fun _ t => b.Safe image symbols t.value.disk ∧ ∃ files saved, m.encode = .ok files saved ∧
        t.value.disk.content? b.file = some files.image ∧ t.value.disk.content? b.symbols = files.symbols)
      (fun t => b.Intact image symbols t.value.disk) (Session.saveModule p m s) := by
  have hsave : Edit.Steps (Frame []) (Edit.onOther m Module.save) := Session.onOther_steps m Module.save
  have hnone : ∀ q ∈ ([] : List Path), b.Aside s.value.disk q := fun _ hq => absurd hq List.not_mem_nil
  unfold Session.saveModule
  refine hsave.bind_meets (fun t ht => h.toIntact.within ht.changes hnone) fun saved t hok hframe =>
    Edit.meets_of_ok ?_
  obtain ⟨files, saved⟩ := saved
  have hencode := (Session.save_ok hok).1
  obtain ⟨data, hdata⟩ := symbols_of_encode hencode hdocuments
  have ht := h.within hframe.changes hnone
  obtain ⟨d₁, d₂, hd₁, hd₂, hsafe, himage, hdataContent⟩ := exists_overwrite ht files.image data
  rw [hfile] at hd₁
  rw [hsymbols] at hd₂
  dsimp only
  rw [hdata]
  exact ⟨(), _, edit_bind_ok.mpr ⟨(), _, Session.change_ok.mpr ⟨d₁, hd₁, rfl⟩, Session.change_ok.mpr ⟨d₂, hd₂, rfl⟩⟩, hsafe,
    files, saved, hencode, himage, hdataContent.trans hdata.symm⟩

/-! ## Probing -/

/-- What probing a module whose files are pristine leads to. -/
theorem pristine_meets {documents : List String} (hm : m.LoadedFrom image symbols)
    (hdocuments : m.documents = some documents) (hsource : hasSource config.scope documents.toArray m = true)
    (hmarker : m.hasAttribute config.markerAttribute = false) (hbackup : b = Backup.of p config.backupSuffix)
    (h : b.Restored image symbols s.value.disk) (hcompanion : ∀ q ∈ companionPath? config p, b.Aside s.value.disk q) :
    Edit.Meets (fun outcome t => b.Safe image symbols t.value.disk ∧ ∃ companion placed before after files,
        outcome = .probed b companion placed ∧ Rewrites config p image symbols before after placed files ∧
        t.value.disk.content? b.file = some files.image ∧ t.value.disk.content? b.symbols = files.symbols ∧
        before.value.ids = s.value.ids ∧ t.value.ids = after.value.ids)
      (fun t => b.Intact image symbols t.value.disk) (pristine config p b documents.toArray m s) := by
  have hfile : b.file = p := by rw [hbackup, Backup.file_of]
  have hsymbols : b.symbols = SymbolFile.pathFor p := by rw [hbackup, Backup.symbols_of]
  unfold pristine
  refine Edit.Meets.bind (((Backup.create_meets h).and ((Backup.create_steps b).meets s)).mono (fun _ _ ht => ht)
    fun t ht => ht.1) fun _ s₁ ⟨hcopied₁, hframe₁⟩ => ?_
  have haside₁ : ∀ q ∈ (companionPath? config p).toList, b.Aside s₁.value.disk q :=
    fun q hq r hr => hframe₁.changes.apart (hcompanion q (Option.mem_toList.mp hq) r hr)
  have hdeploy : Edit.Steps (Frame (companionPath? config p).toList) (deployCompanion config p) :=
    deployCompanion_steps fun q hq => Option.mem_toList.mpr (companionCopy?_sub hq)
  refine hdeploy.bind_meets (fun t ht => hcopied₁.toIntact.within ht.changes haside₁) fun companion s₂ _ hframe₂ => ?_
  have hcopied₂ := hcopied₁.within hframe₂.changes haside₁
  refine Edit.meets_ofExcept_bind hcopied₂.toIntact fun prepared hprepared => ?_
  have hnone : ∀ q ∈ ([] : List Path), b.Aside s₂.value.disk q := fun _ hq => absurd hq List.not_mem_nil
  have hweave : Edit.Steps (Changes []) (Weave.types (contextOf config p documents (importApi config prepared).2
    (importApi config prepared).1) (importApi config prepared).2.types) := types_steps _
  dsimp only
  refine hweave.bind_meets (fun t ht => hcopied₂.toIntact.within ht hnone) fun woven s₃ hwoven hchanges => ?_
  have hcopied₃ := hcopied₂.within hchanges hnone
  obtain ⟨woven, placed⟩ := woven
  have hsome : ({ (importApi config prepared).2 with types := woven } : Module).documents.isSome := by
    rw [documents_woven hdocuments hprepared]
    rfl
  have hsave : Edit.Steps (Frame [p, SymbolFile.pathFor p]) (Session.saveModule p
      { (importApi config prepared).2 with types := woven }) := Session.saveModule_steps (by simp) (by simp)
  refine Edit.Meets.bind (((saveModule_meets hfile hsymbols hcopied₃ hsome).and (hsave.meets s₃)).mono
    (fun _ _ ht => ht) fun t ht => ht.1) fun _ s₄ ⟨⟨hsafe, files, saved, hencode, himage, hdata⟩, hframe₄⟩ => ?_
  have hrewrites : Rewrites config p image symbols s₂ s₃ placed files :=
    ⟨m, documents, prepared, woven, saved, hm, hdocuments, hsource, hmarker, hprepared, hwoven, hencode⟩
  exact ⟨hsafe, companion, placed, s₂, s₃, files, rfl, hrewrites, himage, hdata, hframe₂.ids.trans hframe₁.ids,
    hframe₄.ids⟩

/-- What probing a module leads to, however it ends. -/
def Outcomes (config : Config) (p : Path) (b : Backup) (image symbols : List UInt8) (s : Logged Session) (outcome : Outcome)
    (t : Logged Session) : Prop :=
  b.Safe image symbols t.value.disk ∧
    ((∃ reason, outcome = .skipped reason ∧ b.Intact image symbols t.value.disk ∧ t.value.ids = s.value.ids) ∨
      ∃ companion placed before after files,
        outcome = .probed b companion placed ∧ Rewrites config p image symbols before after placed files ∧
        t.value.disk.content? b.file = some files.image ∧ t.value.disk.content? b.symbols = files.symbols ∧
        before.value.ids = s.value.ids ∧ t.value.ids = after.value.ids)

theorem skip_meets {reason : SkipReason} (h : b.Intact image symbols s'.value.disk)
    (hids : s'.value.ids = s.value.ids) :
    Edit.Meets (Outcomes config p b image symbols s) (fun t => b.Intact image symbols t.value.disk) (skip p reason s') :=
  ⟨h.toSafe, .inl ⟨reason, rfl, h, hids⟩⟩

/-- Once the files are restored, the module is loaded, and probed if it may be. -/
theorem restored_meets {t : Logged Session} (hbackup : b = Backup.of p config.backupSuffix)
    (h : b.Restored image symbols t.value.disk) (hids : t.value.ids = s.value.ids)
    (hcompanion : ∀ q ∈ companionPath? config p, b.Aside t.value.disk q) :
    Edit.Meets (Outcomes config p b image symbols s) (fun t => b.Intact image symbols t.value.disk)
      (restored config p b t) := by
  have hfile : b.file = p := by rw [hbackup, Backup.file_of]
  have hsymbols : b.symbols = SymbolFile.pathFor p := by rw [hbackup, Backup.symbols_of]
  have hisFile : Session.isFile b.symbols t = .ok true t :=
    congrArg (EStateM.Result.ok · t) (Disk.isFile_iff.mpr ⟨symbols, h.symbolsContent⟩)
  unfold restored
  refine Edit.meets_bind_ok hisFile ?_
  rw [Bool.not_true, if_neg Bool.false_ne_true]
  have hnone : ∀ q ∈ ([] : List Path), b.Aside t.value.disk q := fun _ hq => absurd hq List.not_mem_nil
  have hload : Edit.Steps (Frame []) (Session.loadModule p) := Session.loadModule_steps p
  refine hload.bind_meets (fun u hu => h.toIntact.within hu.changes hnone) fun m u hm hframe => ?_
  have hrestored := h.within hframe.changes hnone
  have hids' := hframe.ids.trans hids
  have hloaded : m.LoadedFrom image symbols :=
    loadModule_ok hm (hfile ▸ h.fileContent) (hsymbols ▸ h.symbolsContent)
  cases hdocuments : m.documents with
  | none => exact skip_meets hrestored.toIntact hids'
  | some documents =>
    dsimp only
    cases hsource : hasSource config.scope documents.toArray m with
    | false => exact skip_meets hrestored.toIntact hids'
    | true =>
      rw [Bool.not_true, if_neg Bool.false_ne_true]
      cases hmarker : m.hasAttribute config.markerAttribute with
      | true => exact hrestored.toIntact
      | false =>
        rw [if_neg Bool.false_ne_true]
        have haside : ∀ q ∈ companionPath? config p, b.Aside u.value.disk q :=
          fun q hq r hr => hframe.changes.apart (hcompanion q hq r hr)
        refine (pristine_meets hloaded hdocuments hsource hmarker hbackup hrestored haside).mono ?_ fun _ hv => hv
        rintro outcome v ⟨hsafe, companion, placed, before, after, files, rfl, hrewrites, himage, hdata, hbefore, hafter⟩
        exact ⟨hsafe, .inr ⟨companion, placed, before, after, files, rfl, hrewrites, himage, hdata,
          hbefore.trans hids', hafter⟩⟩

theorem restored_ok {t : Logged Session} {outcome : Outcome} (hbackup : b = Backup.of p config.backupSuffix)
    (h : b.Restored image symbols t.value.disk) (hids : t.value.ids = s.value.ids)
    (hcompanion : ∀ q ∈ companionPath? config p, b.Aside t.value.disk q) (hok : restored config p b t = .ok outcome s') :
    Outcomes config p b image symbols s outcome s' := by
  have hmeets := restored_meets hbackup h hids hcompanion
  rwa [hok] at hmeets

theorem module_meets (hbackup : b = Backup.of p config.backupSuffix) (h : b.Safe image symbols s.value.disk)
    (hcompanion : ∀ q ∈ companionPath? config p, b.Aside s.value.disk q) :
    Edit.Meets (Outcomes config p b image symbols s) (fun t => b.Intact image symbols t.value.disk)
      (module config p s) := by
  obtain ⟨found, t, hrestore, hrestored⟩ := Backup.restore_ok h
  have hframe := (Backup.restore_steps b).ok hrestore
  have haside : ∀ q ∈ companionPath? config p, b.Aside t.value.disk q :=
    fun q hq r hr => hframe.changes.apart (hcompanion q hq r hr)
  rw [module_eq, ← hbackup]
  refine Edit.meets_bind_ok hrestore ?_
  split
  · have hlog : Edit.log (.restored p b.copy) t = .ok () { t with log := t.log.push (.restored p b.copy) } := rfl
    refine Edit.meets_bind_ok hlog ?_
    exact restored_meets hbackup hrestored hframe.ids haside
  · exact restored_meets hbackup hrestored hframe.ids haside

end Weave

end CilProbes
