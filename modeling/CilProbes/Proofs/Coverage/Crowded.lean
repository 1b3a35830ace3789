import CilProbes.Proofs.Coverage.Difference
import CilProbes.Proofs.Coverage.Lockstep
import CilProbes.Proofs.Coverage.Runs
import CilProbes.Proofs.Module.Crowded

/-!
# Probing a module of many methods

A module without copies is probed if each step of it succeeds (`Weave.exists_module`). The steps succeed for a module
with as many methods as tokens have room for, of which the last one has a point. The initializer that it gets takes the
first row, and then no token names the last method: it is loaded without its point (`Weave.exists_crowded`).
-/

namespace CilProbes

namespace Backup

variable {b : Backup} {image symbols : List UInt8} {s : Logged Session}

/-- There is nothing to restore. -/
theorem Restored.restore (h : b.Restored image symbols s.value.disk) : b.restore s = .ok false s := by
  have hfile {file copy : Path} (hcopy : s.value.disk.content? copy = none) : restoreFile file copy s = .ok false s :=
    edit_bind_ok.mpr ⟨false, s, congrArg (EStateM.Result.ok · s) (Disk.isFile_eq_false.mpr hcopy), rfl⟩
  exact edit_bind_ok.mpr ⟨false, s, hfile h.noCopy, edit_bind_ok.mpr ⟨false, s, hfile h.noSymbolsCopy, rfl⟩⟩

/-- The files are copied, if there are places for the copies. -/
theorem Restored.exists_create (h : b.Restored image symbols s.value.disk)
    (hcopy : ∃ l, s.value.disk.place? b.copy = some l) (hsymbolsCopy : ∃ l, s.value.disk.place? b.symbolsCopy = some l) :
    ∃ d, b.create s = .ok () { s with value := { s.value with disk := d } } ∧
      s.value.disk.Within [b.copy, b.symbolsCopy] d := by
  obtain ⟨-, ⟨hcopySymbols, -⟩, -⟩ := pairwise_paths.mp h.apart
  obtain ⟨l, hl⟩ := hcopy
  obtain ⟨d₁, hd₁⟩ := Disk.exists_copy h.fileContent hl
  have hwithin₁ := Disk.within_copy hd₁
  have hsymbols₁ : d₁.content? b.symbols = some symbols :=
    (hwithin₁.content?_eq (List.forall_mem_singleton.mpr hcopySymbols)).trans h.symbolsContent
  obtain ⟨k, hk⟩ := hsymbolsCopy
  obtain ⟨d₂, hd₂⟩ := Disk.exists_copy hsymbols₁ ((hwithin₁.place?_eq _).trans hk)
  refine ⟨d₂, edit_bind_ok.mpr ⟨(), { s with value := { s.value with disk := d₁ } }, ?_, ?_⟩, ?_⟩
  · exact Session.change_ok.mpr ⟨d₁, hd₁, rfl⟩
  · exact Session.change_ok.mpr ⟨d₂, hd₂, rfl⟩
  · exact (hwithin₁.mono (by simp)).trans ((Disk.within_copy hd₂).mono (by simp))

end Backup

namespace Module

variable {m m' : Module} {image symbols : List UInt8}

theorem LoadedFrom.unique (h : m.LoadedFrom image symbols) (h' : m'.LoadedFrom image symbols) : m = m' := by
  obtain ⟨fresh, file, hfresh, hfile, -, rfl⟩ := h.exists_attached
  obtain ⟨fresh', file', hfresh', hfile', -, rfl⟩ := h'.exists_attached
  cases hfresh.symm.trans hfresh'
  cases hfile.symm.trans hfile'
  rfl

/-- The files at the path are those of the module. -/
def StoredAt (m : Module) (p : Path) (d : Disk) : Prop :=
  ∃ image symbols, d.content? p = some image ∧ d.content? (SymbolFile.pathFor p) = some symbols ∧
    m.LoadedFrom image symbols

theorem StoredAt.exists_loadModule {p : Path} {s : Logged Session} (h : m.StoredAt p s.value.disk) :
    ∃ u, Session.loadModule p s = .ok m u := by
  obtain ⟨image, symbols, himage, hsymbols, hm⟩ := h
  obtain ⟨u, hload, -⟩ := hm.loadModule himage hsymbols
  exact ⟨u, hload⟩

end Module

namespace Weave

open Session (Changes)

variable {config : Config} {p : Path} {c : Context} {m prepared saved : Module} {s s' : Logged Session}
  {image symbols : List UInt8} {documents : List String} {woven : List TypeDef} {placed : List PlacedProbe}
  {files : Image.Files}

theorem deployCompanion_none (h : config.companion = none) : deployCompanion config p s = .ok none s := by
  unfold deployCompanion
  rw [h]
  rfl

/-- A module without copies is probed, if it can be prepared, its probes can be placed, and the result can be written. -/
theorem exists_module (hcompanion : config.companion = none)
    (h : (Backup.of p config.backupSuffix).Restored image symbols s.value.disk)
    (hcopy : ∃ l, s.value.disk.place? (Backup.of p config.backupSuffix).copy = some l)
    (hsymbolsCopy : ∃ l, s.value.disk.place? (Backup.of p config.backupSuffix).symbolsCopy = some l)
    (hm : m.LoadedFrom image symbols) (hdocuments : m.documents = some documents)
    (hsource : hasSource config.scope documents.toArray m = true) (hmarker : m.hasAttribute config.markerAttribute = false)
    (hprepared : prepareRecording config (m.addAttribute config.markerAttribute) = .ok prepared)
    (htypes : ∀ t : Logged Session, t.value.sources = s.value.sources → t.value.ids = s.value.ids →
      s.value.disk.Within [(Backup.of p config.backupSuffix).copy, (Backup.of p config.backupSuffix).symbolsCopy]
        t.value.disk →
      ∃ u, types (contextOf config p documents (importApi config prepared).2 (importApi config prepared).1)
        (importApi config prepared).2.types t = .ok (woven, placed) u)
    (hencode : Module.encode { (importApi config prepared).2 with types := woven } = .ok files saved) :
    ∃ s', module config p s = .ok (.probed (Backup.of p config.backupSuffix) none placed) s' := by
  have hisFile : Session.isFile (Backup.of p config.backupSuffix).symbols s = .ok true s :=
    congrArg (EStateM.Result.ok · s) (Disk.isFile_iff.mpr ⟨symbols, h.symbolsContent⟩)
  have hdata : s.value.disk.content? (SymbolFile.pathFor p) = some symbols := by
    rw [← Backup.symbols_of p config.backupSuffix]
    exact h.symbolsContent
  obtain ⟨t, hload, ht⟩ := hm.loadModule (show s.value.disk.content? p = some image from h.fileContent) hdata
  obtain ⟨d, hcreate, hwithin⟩ : ∃ d, (Backup.of p config.backupSuffix).create t =
      .ok () { t with value := { t.value with disk := d } } ∧
      s.value.disk.Within [(Backup.of p config.backupSuffix).copy, (Backup.of p config.backupSuffix).symbolsCopy] d := by
    rw [← ht] at h hcopy hsymbolsCopy ⊢
    exact h.exists_create hcopy hsymbolsCopy
  have hsources : t.value.sources = s.value.sources := by rw [ht]
  have hids : t.value.ids = s.value.ids := by rw [ht]
  obtain ⟨u, hwoven⟩ := htypes { t with value := { t.value with disk := d } } hsources hids hwithin
  have hplace (q : Path) : u.value.disk.place? q = s.value.disk.place? q :=
    (((types_steps _).ok hwoven : Changes [] _ u).place?_eq q).trans (hwithin.place?_eq q)
  obtain ⟨v, hsave⟩ := Session.exists_saveModule (s := u) hencode (hplace p ▸ h.filePlace) fun _ => by
    rw [hplace, ← Backup.symbols_of p config.backupSuffix]
    exact h.symbolsPlace
  rw [module_of_restore h.restore, if_neg Bool.false_ne_true]
  unfold restored
  rw [edit_bind_of_ok hisFile, if_neg (by decide), edit_bind_of_ok hload]
  dsimp only
  rw [hdocuments]
  dsimp only
  rw [hsource, if_neg (by decide), hmarker, if_neg Bool.false_ne_true]
  unfold pristine
  rw [edit_bind_of_ok hcreate, edit_bind_of_ok (deployCompanion_none hcompanion), hprepared]
  refine ⟨{ v with log := v.log.push (.instrumented p placed.length) }, ?_⟩
  refine edit_bind_ok.mpr ⟨prepared, { t with value := { t.value with disk := d } }, rfl, ?_⟩
  exact edit_bind_ok.mpr ⟨(woven, placed), u, hwoven, edit_bind_ok.mpr ⟨(), v, hsave, rfl⟩⟩

/-! ## Many methods -/

section Crowded

open Backup (smallConfig smallDisk)

variable {typeName : String} {a : Method} {ms rest rest' first : List Method} {last last' : Method} {n : Nat}

theorem method_of_no_points (typeName : String) (h : a.points = []) : method c typeName a s = .ok (a, []) s := by
  unfold method
  cases hbody : a.body with
  | none => rfl
  | some body =>
    have hgrouped : grouped a.points = [] := by rw [h]; rfl
    rw [hgrouped]
    show EStateM.Result.ok ({ a with body := some body }, []) s = _
    rw [← hbody]

theorem methods_append (hms : ∀ a ∈ ms, a.points = []) (h : methods c typeName rest s = .ok (rest', placed) s') :
    methods c typeName (ms ++ rest) s = .ok (ms ++ rest', placed) s' := by
  induction ms with
  | nil => exact h
  | cons a ms ih =>
    obtain ⟨ha, hms⟩ := List.forall_mem_cons.mp hms
    exact edit_bind_ok.mpr ⟨(a, []), s, method_of_no_points typeName ha, edit_bind_ok.mpr ⟨_, s', ih hms, rfl⟩⟩

/-- Types with points in the last method only are probed if this method is. -/
theorem types_crowded (hfirst : ∀ a ∈ first, a.points = []) (hlast : method c "" last s = .ok (last', placed) s') :
    types c (m.crowded first n last).types s = .ok ((m.crowded first n last').types, placed) s' := by
  have hglobal : methods c Module.globalTypeName (first ++ []) s = .ok (first ++ [], []) s := methods_append hfirst rfl
  have hothers : methods c "" (List.replicate n .bare ++ [last]) s =
      .ok (List.replicate n .bare ++ [last'], placed) s' := by
    refine methods_append (fun a ha => List.eq_of_mem_replicate ha ▸ rfl) ?_
    refine edit_bind_ok.mpr ⟨_, s', hlast, ?_⟩
    show EStateM.Result.ok ([last'], placed ++ []) s' = _
    rw [List.append_nil]
  have htype {name space inside : String} {own own' : List Method} {t t' : Logged Session} {here : List PlacedProbe}
      (h : methods c name own t = .ok (own', here) t') :
      type c name ⟨0, space, inside, own, []⟩ t = .ok (⟨0, space, inside, own', []⟩, here) t' := by
    unfold type
    exact edit_bind_ok.mpr ⟨([], []), t, by rw [nestedTypes]; rfl, edit_bind_ok.mpr ⟨_, t', h, rfl⟩⟩
  rw [List.append_nil] at hglobal
  refine edit_bind_ok.mpr ⟨_, s, htype hglobal, edit_bind_ok.mpr
    ⟨([{ space := "", name := "", methods := List.replicate n .bare ++ [last'] }], placed), s', ?_, rfl⟩⟩
  refine edit_bind_ok.mpr ⟨_, s', htype hothers, ?_⟩
  show EStateM.Result.ok (_, placed ++ []) s' = _
  rw [List.append_nil]

theorem importMember_crowded (m : Module) (first : List Method) (n : Nat) (last : Method) (member : MemberRef) :
    (m.crowded first n last).importMember member =
      ((m.importMember member).1, (m.importMember member).2.crowded first n last) := by
  rw [Module.importMember_place, Module.importMember_place]
  rfl

theorem internString_crowded (m : Module) (first : List Method) (n : Nat) (last : Method) (value : String) :
    (m.crowded first n last).internString value =
      ((m.internString value).1, (m.internString value).2.crowded first n last) := by
  rw [Module.internString_place, Module.internString_place]
  rfl

theorem importApi_crowded (config : Config) (m : Module) (first : List Method) (n : Nat) (last : Method) :
    importApi config (m.crowded first n last) =
      ((importApi config m).1, (importApi config m).2.crowded first n last) := by
  unfold importApi
  rw [internString_crowded]
  dsimp only
  rw [importMember_crowded]

/-- What the call that prepares recording refers to, and the module with it. -/
def importInit (config : Config) (m : Module) : (Token × Token) × Module :=
  let (init, m) := m.importMember (member config.probe config.probe.initMethod ProbeNames.initSignature)
  let (hitsFile, m) := m.internString config.hitsFile
  ((hitsFile, init), m)

/-- The initializer that is added calls what prepares recording. -/
theorem prepareRecording_crowded {b body : MethodBody} (hb : Method.emptyInitializer.body = some b)
    (hlast : last.mapTokens (Token.shiftMethod 1) = last)
    (hbody : prepend b [.loadString (importInit config m).1.1, .call (importInit config m).1.2] = .ok body) :
    prepareRecording config (m.crowded [] n last) = .ok ((importInit config m).2.crowded [{ Method.emptyInitializer with
      body := some { body with maxStack := if body.maxStack < 1 then 1 else body.maxStack } }] n last) := by
  unfold importInit at hbody ⊢
  unfold prepareRecording
  rw [importMember_crowded]
  dsimp only at hbody ⊢
  rw [internString_crowded]
  dsimp only
  rw [Module.ensureInitializer_crowded _ n hlast]
  refine (bind_of_ok rfl).trans ?_
  generalize hopening : [Instruction.loadString _, Instruction.call _] = opening at hbody ⊢
  generalize ((m.importMember _).2.internString config.hitsFile).2 = imported
  have hfirst : (imported.crowded [.emptyInitializer] n last).methods[0]?.bind Method.body = some b := by
    rw [Module.methods_crowded]
    exact hb
  dsimp only
  rw [hfirst]
  have hopened (opened : Method) : (imported.crowded [.emptyInitializer] n last).withMethods
      ([opened] ++ (List.replicate n .bare ++ [last])) = imported.crowded [opened] n last := by
    rw [← Module.methods_crowded imported]
    exact Module.withMethods_crowded rfl
  refine (bind_of_ok hbody).trans (congrArg Except.ok ?_)
  rw [Module.methods_crowded]
  exact hopened _

/-- How a module of many methods is prepared, and what becomes of its last method on the disk of the small module. -/
theorem exists_prepared_crowded (n : Nat) : ∃ (prepared m : Module) (api : ProbeApi) (opened last : Method)
    (placed : List PlacedProbe) (t : Logged Session),
    prepareRecording (smallConfig "~") ((Module.sourced.crowded [] n .returning).addAttribute
      (smallConfig "~").markerAttribute) = .ok prepared ∧
    importApi (smallConfig "~") prepared = (api, m.crowded [opened] n .returning) ∧ opened.points = [] ∧ opened.Stays ∧
    last.Stays ∧ m.documents = some ["/w/s/d"] ∧ (∃ tables, Image.tables (m.crowded [] 0 .bare) = .ok tables ∧ True) ∧
    method (contextOf (smallConfig "~") ⟨"/w/a.dll"⟩ ["/w/s/d"] m api) "" .returning ⟨{ disk := smallDisk [] }, #[]⟩ =
      .ok (last, placed) t := by
  have hmarked : (Module.sourced.crowded [] n .returning).addAttribute (smallConfig "~").markerAttribute =
      (Module.sourced.addAttribute (smallConfig "~").markerAttribute).crowded [] n .returning := rfl
  generalize hm : Module.sourced.addAttribute (smallConfig "~").markerAttribute = m at hmarked
  obtain ⟨body, hbody, hopens⟩ : ∃ body, prepend { maxStack := 0, code := InstructionStream.push {} .ret }
      [.loadString (importInit (smallConfig "~") m).1.1, .call (importInit (smallConfig "~") m).1.2] = .ok body ∧
      ({ Method.emptyInitializer with
        body := some { body with maxStack := if body.maxStack < 1 then 1 else body.maxStack } } : Method).Stays := by
    rw [← hm]
    decide +kernel
  obtain ⟨⟨last, placed⟩, t, hlast, hstays⟩ : ∃ found t, method (contextOf (smallConfig "~") ⟨"/w/a.dll"⟩ ["/w/s/d"]
      (importApi (smallConfig "~") (importInit (smallConfig "~") m).2).2
      (importApi (smallConfig "~") (importInit (smallConfig "~") m).2).1) "" .returning
      ⟨{ disk := smallDisk [] }, #[]⟩ = .ok found t ∧ found.1.Stays := by
    rw [← hm]
    decide +kernel
  have hprepared := prepareRecording_crowded (n := n) rfl
    (show Method.returning.mapTokens (Token.shiftMethod 1) = .returning by decide +kernel) hbody
  refine ⟨_, _, _, _, last, placed, t, hmarked ▸ hprepared, importApi_crowded .., rfl, hopens, hstays, ?_, ?_, hlast⟩
  · rw [← hm]
    decide +kernel
  · rw [← hm]
    decide +kernel

/-- On a disk like that of the small module, a module of many methods is probed. -/
theorem exists_module_crowded {d : Disk} (hn : n + 2 ≤ Compressed.limit)
    (hwithin : (smallDisk []).Within [⟨"/w/a.dll"⟩, SymbolFile.pathFor ⟨"/w/a.dll"⟩] d)
    (hrestored : (Backup.of ⟨"/w/a.dll"⟩ "~").Restored image symbols d)
    (hm : (Module.sourced.crowded [] n .returning).LoadedFrom image symbols) :
    ∃ placed s', module (smallConfig "~") ⟨"/w/a.dll"⟩ ⟨{ disk := d }, #[]⟩ =
      .ok (.probed (Backup.of ⟨"/w/a.dll"⟩ "~") none placed) s' := by
  obtain ⟨prepared, m, api, opened, last, placed, t, hprepared, himports, hbare, hopened, hlast, hdocuments, htables,
    hmethod⟩ := exists_prepared_crowded n
  obtain ⟨files, hencode, -⟩ := Module.exists_encode_crowded (n := n) hdocuments (by decide) htables
    (List.forall_mem_singleton.mpr hopened) hlast (by rw [List.length_singleton]; omega)
  have hplace {q : Path} (h : ((smallDisk []).place? q).isSome = true) : ∃ l, d.place? q = some l := by
    rw [hwithin.place?_eq]
    exact Option.isSome_iff_exists.mp h
  have hsource : hasSource (smallConfig "~").scope ["/w/s/d"].toArray (Module.sourced.crowded [] n .returning) = true := by
    refine List.any_eq_true.mpr ⟨.returning, ?_, by decide +kernel⟩
    exact List.mem_of_getElem? (Module.getElem?_crowded ..)
  have hplaces : ∀ r ∈ (Backup.of ⟨"/w/a.dll"⟩ "~").paths,
      (smallDisk []).place? r ≠ (smallDisk []).place? ⟨"/w/s/d"⟩ := by decide +kernel
  refine ⟨placed, exists_module (show (smallConfig "~").companion = none from rfl) hrestored (hplace (by decide +kernel))
    (hplace (by decide +kernel)) hm rfl hsource rfl hprepared (fun s hsources hids hcopies => ?_)
    (by rw [himports]; exact hencode)⟩
  -- The last method is the only one that looks at the disk, and only at its source, which is as on the small disk.
  have hwithin' : (smallDisk []).Within (Backup.of ⟨"/w/a.dll"⟩ "~").paths s.value.disk :=
    (hwithin.mono (by simp [Backup.paths, Backup.of])).trans (hcopies.mono (by simp [Backup.paths, smallConfig]))
  have hagree : Session.Agree [⟨"/w/s/d"⟩] ⟨{ disk := smallDisk [] }, #[]⟩ s := by
    refine ⟨⟨hwithin'.folders, List.forall_mem_singleton.mpr ?_⟩, hsources, hids⟩
    exact hwithin'.content?_eq fun r hr => Backup.apart_of_place?_ne (hplaces r hr)
  have hsourced : Sourced (smallConfig "~").scope [⟨"/w/s/d"⟩] := by
    unfold Sourced
    decide +kernel
  obtain ⟨u, hu, -⟩ := (method_lockstep hsourced "" .returning).follow hagree hmethod
  rw [himports]
  exact ⟨u, types_crowded (List.forall_mem_singleton.mpr hbare) hu⟩

/-- Any two files may take the places of those of the small module. -/
theorem exists_restored_disk (image symbols : List UInt8) : ∃ d : Disk,
    (smallDisk []).Within [⟨"/w/a.dll"⟩, SymbolFile.pathFor ⟨"/w/a.dll"⟩] d ∧
    (Backup.of ⟨"/w/a.dll"⟩ "~").Restored image symbols d := by
  have hplaces : (Backup.of ⟨"/w/a.dll"⟩ "~").paths.Pairwise
      fun q r => (smallDisk []).place? q ≠ (smallDisk []).place? r := by decide +kernel
  have hapart : (Backup.of ⟨"/w/a.dll"⟩ "~").paths.Pairwise (smallDisk []).Apart := hplaces.imp Backup.apart_of_place?_ne
  obtain ⟨⟨hfileCopy, hfileSymbols, hfileSymbolsCopy⟩, ⟨hcopySymbols, -⟩, hsymbolsCopy⟩ := Backup.pairwise_paths.mp hapart
  have hplace {q : Path} (h : ((smallDisk []).place? q).isSome = true) : ∃ l, (smallDisk []).place? q = some l :=
    Option.isSome_iff_exists.mp h
  obtain ⟨l, hl⟩ : ∃ l, (smallDisk []).place? ⟨"/w/a.dll"⟩ = some l := hplace (by decide +kernel)
  obtain ⟨k, hk⟩ : ∃ k, (smallDisk []).place? (SymbolFile.pathFor ⟨"/w/a.dll"⟩) = some k := hplace (by decide +kernel)
  obtain ⟨d₁, hd₁⟩ := Disk.exists_write hl image
  have hwithin₁ := Disk.within_write hd₁
  obtain ⟨d₂, hd₂⟩ := Disk.exists_write ((hwithin₁.place?_eq _).trans hk) symbols
  have hwithin₂ := Disk.within_write hd₂
  have hwithin : (smallDisk []).Within [⟨"/w/a.dll"⟩, SymbolFile.pathFor ⟨"/w/a.dll"⟩] d₂ :=
    (hwithin₁.mono (by simp)).trans (hwithin₂.mono (by simp))
  have hfile : d₂.content? ⟨"/w/a.dll"⟩ = some image :=
    (hwithin₂.content?_eq (List.forall_mem_singleton.mpr (hwithin₁.apart hfileSymbols.symm))).trans
      (Disk.content?_write hd₁)
  have hsymbols : d₂.content? (SymbolFile.pathFor ⟨"/w/a.dll"⟩) = some symbols := Disk.content?_write hd₂
  have hnone {q : Path} (h : (smallDisk []).content? q = none) (hq : (smallDisk []).Apart ⟨"/w/a.dll"⟩ q)
      (hq' : (smallDisk []).Apart (SymbolFile.pathFor ⟨"/w/a.dll"⟩) q) : d₂.content? q = none :=
    (hwithin.content?_eq (List.forall_mem_cons.mpr ⟨hq, List.forall_mem_singleton.mpr hq'⟩)).trans h
  have hcopy := hnone (by decide +kernel) hfileCopy hcopySymbols.symm
  have hnoSymbolsCopy := hnone (by decide +kernel) hfileSymbolsCopy hsymbolsCopy
  exact ⟨d₂, hwithin, ⟨⟨⟨Backup.pairwise_within hapart hwithin, ⟨l, (hwithin.place?_eq _).trans hl⟩,
    ⟨k, (hwithin.place?_eq _).trans hk⟩, .inr ⟨hcopy, hfile⟩, .inr ⟨hnoSymbolsCopy, hsymbols⟩⟩, hfile, hsymbols⟩, hcopy,
    hnoSymbolsCopy⟩⟩

/-- A module of as many methods as tokens have room for gets an initializer and is probed; then it lacks its point. -/
theorem exists_crowded : ∃ (d : Disk) (s' : Logged Session) (placed : List PlacedProbe) (m m' : Module) (a a' : Method),
    module (smallConfig "~") ⟨"/w/a.dll"⟩ ⟨{ disk := d }, #[]⟩ =
      .ok (.probed (Backup.of ⟨"/w/a.dll"⟩ "~") none placed) s' ∧
    m.StoredAt ⟨"/w/a.dll"⟩ d ∧ m'.StoredAt ⟨"/w/a.dll"⟩ s'.value.disk ∧ m'.methods.length = m.methods.length + 1 ∧
    m.methods[2 ^ 24 - 2]? = some a ∧ a.points.length = 1 ∧ m'.methods[2 ^ 24 - 1]? = some a' ∧ a'.points = [] := by
  obtain ⟨n, hn⟩ : ∃ n, n + 2 = 2 ^ 24 := ⟨2 ^ 24 - 2, rfl⟩
  have hlimit : n + 2 ≤ Compressed.limit := hn ▸ by decide
  obtain ⟨old, hold, -⟩ := Module.exists_encode_crowded (m := .sourced) (n := n) rfl (by decide) (by decide +kernel)
    (List.forall_mem_nil _) Method.stays_returning (by rw [List.length_nil]; omega)
  obtain ⟨-, hparse, symbols, file, hsymbols, hfile, hwf, hattached⟩ :=
    Module.attached_encode (Module.wellFormed_crowded (by omega)) rfl hold
  rw [Module.reread_crowded (by omega)] at hattached
  have hm : (Module.sourced.crowded [] n .returning).LoadedFrom old.image symbols :=
    hattached ▸ loadedFrom_attached hparse hfile hwf
  obtain ⟨d, hwithin, hrestored⟩ := exists_restored_disk old.image symbols
  obtain ⟨placed, s', hmodule⟩ := exists_module_crowded hlimit hwithin hrestored hm
  obtain ⟨found, t, image', symbols', before, after, files, hrestore, himage, hsymbols, hrewrites, himage', hsymbols'⟩ :=
    exists_rewrites hmodule
  have hconfig : (smallConfig "~").Writable := by
    constructor <;> (unfold Field.Writable; decide +kernel)
  obtain ⟨pristine, saved, data, hloaded, hdata, hreread, w, -⟩ := hrewrites.exists_woven hconfig
  -- Nothing was restored, so the module was woven from the files that are on the disk.
  obtain ⟨-, rfl⟩ := EStateM.Result.ok.inj (hrestore.symm.trans hrestored.restore)
  have hold : d.content? ⟨"/w/a.dll"⟩ = some old.image := hrestored.fileContent
  have holdSymbols : d.content? (SymbolFile.pathFor ⟨"/w/a.dll"⟩) = some symbols := by
    rw [← Backup.symbols_of _ "~"]
    exact hrestored.symbolsContent
  obtain rfl : old.image = image' := Option.some_inj.mp (hold.symm.trans himage)
  obtain rfl : symbols = symbols' := Option.some_inj.mp (holdSymbols.symm.trans hsymbols)
  obtain rfl := hloaded.unique hm
  have hlen : saved.reread.methods.length = n + 2 := by
    rw [w.length_reread, Woven.originals, length_originals w.count, w.count]
    show (Module.sourced.crowded [.emptyInitializer] n .returning).methods.length = _
    rw [Module.length_crowded, List.length_singleton]
    omega
  obtain ⟨method, hmethod⟩ : ∃ method, saved.methods[2 ^ 24 - 1]? = some method := by
    refine ⟨_, List.getElem?_eq_getElem ?_⟩
    rw [← Module.length_reread, hlen]
    omega
  obtain ⟨a', ha', hpoints⟩ := Module.points_reread_last hmethod
  refine ⟨d, s', placed, _, saved.reread, .returning, a', hmodule, ⟨_, _, hold, holdSymbols, hm⟩,
    ⟨_, _, himage', hsymbols'.trans hdata, hreread⟩, ?_, ?_, rfl, ha', hpoints⟩
  · rw [hlen, Module.length_crowded, List.length_nil]
    omega
  · rw [show 2 ^ 24 - 2 = ([] : List Method).length + n by rw [List.length_nil]; omega]
    exact Module.getElem?_crowded ..

end Crowded

end Weave

end CilProbes
