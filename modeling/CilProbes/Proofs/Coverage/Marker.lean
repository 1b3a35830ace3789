import CilProbes.Proofs.Coverage.Loading
import CilProbes.Proofs.Module.Oversized

/-!
# Any marker

Nothing that is done to a module looks at its attributes, so a module that is probed with one marker is probed with any
other one that it lacks (`Weave.exists_module_marker`), also with one that is too long for its field. Then the file that
was written cannot be read (`Weave.Rewrites.parse_oversized`).
-/

namespace CilProbes

/-- The settings with another marker. -/
def Config.marking (marker : String) (config : Config) : Config :=
  { config with markerAttribute := marker }

/-- A change of what comes first passes on to what is made of it. -/
theorem map_bind {ε α α' β β' : Type} {x : Except ε α} {g : α → α'} {h : β → β'} {f : α → Except ε β}
    {f' : α' → Except ε β'} (hf : ∀ a, f' (g a) = (f a).map h) : x.map g >>= f' = (x >>= f).map h := by
  cases x with
  | error fault => rfl
  | ok a => exact hf a

theorem bind_map {ε α β β' : Type} {x : Except ε α} {h : β → β'} {f : α → Except ε β} {f' : α → Except ε β'}
    (hf : ∀ a, f' a = (f a).map h) : x >>= f' = (x >>= f).map h := by
  cases x with
  | error fault => rfl
  | ok a => exact hf a

namespace Module

/-- The module with other attributes. -/
def withAttributes (attributes : List String) (m : Module) : Module :=
  { m with attributes }

variable {m m' : Module} {attributes : List String} {files : Image.Files}

theorem importMember_withAttributes (m : Module) (member : MemberRef) :
    (m.withAttributes attributes).importMember member =
      ((m.importMember member).1, (m.importMember member).2.withAttributes attributes) := by
  rw [importMember_place, importMember_place]
  rfl

theorem internString_withAttributes (m : Module) (value : String) :
    (m.withAttributes attributes).internString value =
      ((m.internString value).1, (m.internString value).2.withAttributes attributes) := by
  rw [internString_place, internString_place]
  rfl

theorem addToFirstType_withAttributes (m : Module) (method : Method) :
    (m.withAttributes attributes).addToFirstType method = (m.addToFirstType method).withAttributes attributes := by
  obtain ⟨name, old, memberRefs, userStrings, types, documents⟩ := m
  cases types <;> rfl

theorem ensureInitializer_withAttributes (m : Module) : (m.withAttributes attributes).ensureInitializer =
    m.ensureInitializer.map fun found => (found.1, found.2.withAttributes attributes) := by
  have hglobal : (m.withAttributes attributes).globalType? = m.globalType? := rfl
  unfold ensureInitializer
  rw [hglobal]
  cases m.globalType? with
  | none => rfl
  | some t =>
    dsimp only
    cases t.methods.findIdx? Method.isTypeInitializer with
    | some index =>
      dsimp only
      split <;> rfl
    | none =>
      refine congrArg (fun m => Except.ok (t.methods.length, m)) ?_
      exact addToFirstType_withAttributes (m.shiftMethodRows (t.methods.length + 1)) .emptyInitializer

/-- As many other attributes can be written as well. -/
theorem encode_withAttributes (hlen : attributes.length = m.attributes.length) (h : m.encode = .ok files m') :
    ∃ image, (m.withAttributes attributes).encode = .ok ⟨image, files.symbols⟩ (m'.withAttributes attributes) := by
  obtain ⟨tables, types, ts, symbols, htables, htypes, rfl, hsymbols, rfl⟩ := encode_steps.mp h
  obtain ⟨attributeCount, hattributeCount, htables⟩ := bind_ok.mp htables
  obtain ⟨memberCount, hmemberCount, htables⟩ := bind_ok.mp htables
  obtain ⟨members, hmembers, htables⟩ := bind_ok.mp htables
  obtain ⟨stringCount, hstringCount, htables⟩ := bind_ok.mp htables
  obtain ⟨typeCount, htypeCount, -⟩ := bind_ok.mp htables
  rw [← hlen] at hattributeCount
  have htables' : ∃ tables', Image.tables (m.withAttributes attributes) = .ok tables' :=
    ⟨_, bind_ok.mpr ⟨_, hattributeCount, bind_ok.mpr ⟨_, hmemberCount, bind_ok.mpr ⟨_, hmembers,
      bind_ok.mpr ⟨_, hstringCount, bind_ok.mpr ⟨_, htypeCount, rfl⟩⟩⟩⟩⟩⟩
  obtain ⟨tables', htables'⟩ := htables'
  exact ⟨_, encode_steps.mpr ⟨tables', types, ts, symbols, htables', htypes, rfl, hsymbols, rfl⟩⟩

end Module

namespace Session

variable {m : Module} {attributes : List String} {p : Path} {s s' : Logged Session}

theorem exists_save {m' : Module} {files : Image.Files} (h : m.encode = .ok files m') (s : Logged Session) :
    ∃ s', Edit.onOther m Module.save s = .ok (files, m') s' ∧ s'.value = s.value := by
  refine ⟨{ s with log := s.log.push (.serialized m'.name files.image.length) }, edit_onOther_ok.mpr ⟨?_, rfl⟩, rfl⟩
  exact edit_bind_ok.mpr ⟨files, ⟨m', s.log⟩, edit_onPart_ok.mpr ⟨m', h, rfl⟩, rfl⟩

/-- A module that can be written is saved where there are places for its files. -/
theorem exists_saveModule {m' : Module} {files : Image.Files} (h : m.encode = .ok files m')
    (hp : ∃ l, s.value.disk.place? p = some l)
    (hsymbols : files.symbols.isSome = true → ∃ k, s.value.disk.place? (SymbolFile.pathFor p) = some k) :
    ∃ t, saveModule p m s = .ok () t := by
  obtain ⟨t₁, hsave, hvalue⟩ := exists_save h s
  obtain ⟨l, hl⟩ := hp
  rw [← hvalue] at hl hsymbols
  obtain ⟨d, hd⟩ := Disk.exists_write hl files.image
  have hwrite : write p files.image t₁ = .ok () { t₁ with value := { t₁.value with disk := d } } :=
    change_ok.mpr ⟨d, hd, rfl⟩
  unfold saveModule
  rw [edit_bind_of_ok hsave]
  dsimp only
  rw [edit_bind_of_ok hwrite]
  cases hdata : files.symbols with
  | none => exact ⟨_, rfl⟩
  | some data =>
    obtain ⟨k, hk⟩ := hsymbols (by rw [hdata]; rfl)
    rw [← (Disk.within_write hd).place?_eq] at hk
    obtain ⟨d', hd'⟩ := Disk.exists_write hk data
    exact ⟨_, change_ok.mpr ⟨d', hd', rfl⟩⟩

/-- A module that was saved has places for its files. -/
theorem places_of_saveModule (h : saveModule p m s = .ok () s') : ∃ files m', m.encode = .ok files m' ∧
    (∃ l, s.value.disk.place? p = some l) ∧
    (files.symbols.isSome = true → ∃ k, s.value.disk.place? (SymbolFile.pathFor p) = some k) := by
  obtain ⟨⟨files, saved⟩, s₁, hsave, h⟩ := edit_bind_ok.mp h
  obtain ⟨hencode, hvalue⟩ := save_ok hsave
  obtain ⟨_, s₂, hwrite, h⟩ := edit_bind_ok.mp h
  obtain ⟨d, hd, rfl⟩ := change_ok.mp hwrite
  obtain ⟨l, hl, -⟩ := Disk.write_ok.mp hd
  rw [hvalue] at hl
  refine ⟨files, saved, hencode, ⟨l, hl⟩, fun hsome => ?_⟩
  obtain ⟨data, hdata⟩ := Option.isSome_iff_exists.mp hsome
  rw [hdata] at h
  obtain ⟨d', hd', -⟩ := change_ok.mp h
  obtain ⟨k, hk, -⟩ := Disk.write_ok.mp hd'
  rw [(Disk.within_write hd).place?_eq, hvalue] at hk
  exact ⟨k, hk⟩

/-- Where a module was saved, it can be saved with as many other attributes. -/
theorem saveModule_withAttributes (hlen : attributes.length = m.attributes.length) (h : saveModule p m s = .ok () s') :
    ∃ t, saveModule p (m.withAttributes attributes) s = .ok () t := by
  obtain ⟨files, saved, hencode, hp, hsymbols⟩ := places_of_saveModule h
  obtain ⟨image, hencode'⟩ := Module.encode_withAttributes hlen hencode
  exact exists_saveModule hencode' hp hsymbols

end Session

namespace Weave

variable {config : Config} {marker : String} {p : Path} {m m' : Module} {s s' : Logged Session} {backup : Backup}
  {companion : Option Path} {placed : List PlacedProbe}

theorem prepareRecording_withAttributes (config : Config) (m : Module) (attributes : List String) :
    prepareRecording config (m.withAttributes attributes) =
      (prepareRecording config m).map (Module.withAttributes attributes) := by
  unfold prepareRecording
  rw [Module.importMember_withAttributes]
  dsimp only
  rw [Module.internString_withAttributes]
  dsimp only
  rw [Module.ensureInitializer_withAttributes]
  refine map_bind fun ⟨index, m₂⟩ => ?_
  have hmethods : (m₂.withAttributes attributes).methods = m₂.methods := rfl
  dsimp only
  rw [hmethods]
  cases m₂.methods[index]?.bind Method.body with
  | none => rfl
  | some body => exact bind_map fun _ => rfl

theorem importApi_withAttributes (config : Config) (m : Module) (attributes : List String) :
    importApi config (m.withAttributes attributes) =
      ((importApi config m).1, (importApi config m).2.withAttributes attributes) := by
  unfold importApi
  rw [Module.internString_withAttributes]
  dsimp only
  rw [Module.importMember_withAttributes]

theorem attributes_prepareRecording (h : prepareRecording config m = .ok m') : m'.attributes = m.attributes := by
  have hsame : prepareRecording config m = (prepareRecording config m).map (Module.withAttributes m.attributes) :=
    prepareRecording_withAttributes config m m.attributes
  rw [h] at hsame
  have hmodule : m' = m'.withAttributes m.attributes := Except.ok.inj hsame
  rw [hmodule]
  rfl

theorem attributes_importApi (config : Config) (m : Module) : (importApi config m).2.attributes = m.attributes := by
  have hsame : importApi config m = ((importApi config m).1, (importApi config m).2.withAttributes m.attributes) :=
    importApi_withAttributes config m m.attributes
  exact congrArg (fun found => found.2.attributes) hsame

/-- A pristine module is probed with any marker. -/
theorem exists_pristine_marker {b : Backup} {documents : Array String}
    (h : pristine config p b documents m s = .ok (.probed backup companion placed) s') (marker : String) :
    ∃ t, pristine (config.marking marker) p b documents m s = .ok (.probed backup companion placed) t := by
  obtain ⟨_, s₁, hcreate, h₁⟩ := edit_bind_ok.mp h
  obtain ⟨_, s₂, hdeploy, h₂⟩ := edit_bind_ok.mp h₁
  obtain ⟨prepared, s₃, hprepare, h₃⟩ := edit_bind_ok.mp h₂
  obtain ⟨hprepared, rfl⟩ := ofExcept_ok hprepare
  have happi := importApi_withAttributes config prepared (m.attributes ++ [marker])
  have hattributes := attributes_importApi config prepared
  generalize importApi config prepared = found at h₃ happi hattributes
  obtain ⟨api, m₂⟩ := found
  dsimp only at h₃ happi hattributes
  obtain ⟨⟨woven, placed'⟩, s₄, htypes, h₄⟩ := edit_bind_ok.mp h₃
  obtain ⟨_, s₅, hsave, h₅⟩ := edit_bind_ok.mp h₄
  obtain ⟨_, s₆, hlog, h₆⟩ := edit_bind_ok.mp h₅
  cases hlog
  cases h₆
  have hprepare' : Edit.ofExcept (prepareRecording (config.marking marker) (m.addAttribute marker)) s₃ =
      .ok (prepared.withAttributes (m.attributes ++ [marker])) s₃ := by
    have hcommutes := prepareRecording_withAttributes config (m.addAttribute config.markerAttribute)
      (m.attributes ++ [marker])
    rw [hprepared] at hcommutes
    exact congrArg (fun x => Edit.ofExcept x s₃) hcommutes
  have hlen : (m.attributes ++ [marker]).length = ({ m₂ with types := woven } : Module).attributes.length := by
    show _ = m₂.attributes.length
    rw [hattributes, attributes_prepareRecording hprepared]
    show (m.attributes ++ [marker]).length = (m.attributes ++ [config.markerAttribute]).length
    rw [List.length_append, List.length_append, List.length_singleton, List.length_singleton]
  obtain ⟨t, hsave'⟩ := Session.saveModule_withAttributes hlen hsave
  refine ⟨{ t with log := t.log.push (.instrumented p placed'.length) }, ?_⟩
  refine edit_bind_ok.mpr ⟨_, s₁, hcreate, edit_bind_ok.mpr ⟨_, s₃, hdeploy, edit_bind_ok.mpr ⟨_, s₃, hprepare', ?_⟩⟩⟩
  dsimp only
  rw [show importApi (config.marking marker) _ = _ from happi]
  exact edit_bind_ok.mpr ⟨(woven, placed'), s₄, htypes, edit_bind_ok.mpr ⟨(), t, hsave', rfl⟩⟩

/-- A module that is probed with one marker is probed with any other one that it lacks. -/
theorem exists_restored_marker {b : Backup} {image symbols : List UInt8} (hb : b.symbols = SymbolFile.pathFor p)
    (h : restored config p b s = .ok (.probed backup companion placed) s')
    (himage : s.value.disk.content? p = some image)
    (hsymbols : s.value.disk.content? (SymbolFile.pathFor p) = some symbols)
    (hlacks : ∀ m : Module, m.LoadedFrom image symbols → m.hasAttribute marker = false) :
    ∃ t, restored (config.marking marker) p b s = .ok (.probed backup companion placed) t := by
  have hisFile : Session.isFile b.symbols s = .ok true s :=
    congrArg (EStateM.Result.ok · s) (Disk.isFile_iff.mpr ⟨symbols, hb ▸ hsymbols⟩)
  unfold restored at h ⊢
  rw [edit_bind_of_ok hisFile, if_neg (by decide)] at h ⊢
  obtain ⟨m, s₁, hload, h₁⟩ := edit_bind_ok.mp h
  have hmarker := hlacks m (loadModule_ok hload himage hsymbols)
  rw [edit_bind_of_ok hload]
  cases hdocuments : m.documents with
  | none =>
    rw [hdocuments] at h₁
    cases (skip_ok h₁).1
  | some documents =>
    rw [hdocuments] at h₁
    dsimp only at h₁ ⊢
    split at h₁
    · cases (skip_ok h₁).1
    · next hsource =>
      split at h₁
      · cases h₁
      · obtain ⟨t, ht⟩ := exists_pristine_marker h₁ marker
        refine ⟨t, ?_⟩
        rw [show (config.marking marker).scope = config.scope from rfl, if_neg hsource,
          show (config.marking marker).markerAttribute = marker from rfl, if_neg (by rw [hmarker]; decide)]
        exact ht

theorem exists_module_marker {found : Bool} {t : Logged Session} {image symbols : List UInt8}
    (h : module config p s = .ok (.probed backup companion placed) s')
    (hrestore : (Backup.of p config.backupSuffix).restore s = .ok found t)
    (himage : t.value.disk.content? p = some image)
    (hsymbols : t.value.disk.content? (SymbolFile.pathFor p) = some symbols)
    (hlacks : ∀ m : Module, m.LoadedFrom image symbols → m.hasAttribute marker = false) :
    ∃ u, module (config.marking marker) p s = .ok (.probed backup companion placed) u := by
  have hvalue (log : Log) : (if found then { t with log } else t).value = t.value := by
    split <;> rfl
  have heq : module (config.marking marker) p s = _ := module_of_restore hrestore
  rw [module_of_restore hrestore] at h
  rw [heq]
  exact exists_restored_marker (Backup.symbols_of ..) h (by rw [hvalue]; exact himage) (by rw [hvalue]; exact hsymbols)
    hlacks

/-- A file with a marker of 4 GiB is refused, if the marker begins with a byte that no number begins with. -/
theorem Rewrites.parse_oversized {image symbols rest : List UInt8} {before after : Logged Session} {files : Image.Files}
    {byte : UInt8} (h : Rewrites config p image symbols before after placed files)
    (hsize : (Utf8.encode config.markerAttribute).length % 2 ^ 32 = 0)
    (hfirst : Utf8.encode config.markerAttribute = byte :: rest) (hbyte : 0xE0 ≤ byte) :
    Module.parse files.image = .error (.malformed (.compressedInteger byte)) := by
  obtain ⟨m, documents, prepared, woven, saved, hloaded, -, -, -, hprepared, -, hencode⟩ := h
  have hwf := hloaded.wellFormed
  have hmarked : (m.addAttribute config.markerAttribute).withoutTables.WellFormed := hwf.withoutTables
  have htables : (importApi config prepared).2.withoutTables.WellFormed := by
    rw [withoutTables_importApi]
    exact wellFormed_withoutTables_prepareRecording hmarked hprepared
  have hattributes : (importApi config prepared).2.attributes = m.attributes ++ [config.markerAttribute] :=
    (attributes_importApi config prepared).trans (attributes_prepareRecording hprepared)
  obtain ⟨tables, types, ts, data, hbytes, -, -, -, rfl⟩ := Module.encode_steps.mp hencode
  exact Module.parse_oversized (m := { (importApi config prepared).2 with types := woven }) htables.name hattributes
    hwf.attributes hsize hfirst hbyte hbytes types.bytes

end Weave

/-- A file that is refused is not loaded. -/
theorem Session.not_loadModule {p : Path} {s : Logged Session} {image : List UInt8} {fault : Fault}
    (himage : s.value.disk.content? p = some image) (h : Module.parse image = .error fault) :
    ¬ ∃ m t, Session.loadModule p s = .ok m t := by
  rintro ⟨m, t, hload⟩
  obtain ⟨data, s₁, hread, hload⟩ := edit_bind_ok.mp hload
  obtain ⟨hdata, rfl⟩ := Session.read_content hread
  rw [himage] at hdata
  cases hdata
  obtain ⟨fresh, s₂, hfresh, -⟩ := edit_bind_ok.mp hload
  cases h.symm.trans (Module.load_ok.mp hfresh).1

end CilProbes
