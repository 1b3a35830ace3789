import CilProbes.Proofs.Coverage.Crowded

/-!
# Modules and their symbol files after a run

If what is written for one module of a run takes the place of no file of another one (`Run.Undisturbed`), then every
module that was probed has its own symbol file when the run ends: both files are what was written together
(`Run.symbols_paired`), from the files that its backup held when the run began. The points that are read from the pair are
at the same instructions as those of the pristine module (`Method.Keeps`).

Modules whose names differ in their extension only have one symbol file, and copies or the companion may take the place
of a symbol file; then the files of a module may not belong together when the run ends (`Run.symbols_unpaired`). Nor are
all points read where a text of the settings is too long for its field or a row too high for a token.
-/

namespace CilProbes

/-- Restoring the backup on the disk gives these files. -/
def Backup.Restores (b : Backup) (d : Disk) (image symbols : List UInt8) : Prop :=
  ∃ (s t : Logged Session) (found : Bool), s.value.disk = d ∧ b.restore s = .ok found t ∧
    t.value.disk.content? b.file = some image ∧ t.value.disk.content? b.symbols = some symbols

/-- Files without copies are what restoring gives. -/
theorem Backup.Restores.contents {b : Backup} {d : Disk} {image symbols : List UInt8} (h : b.Restores d image symbols)
    (hcopy : d.content? b.copy = none) (hsymbolsCopy : d.content? b.symbolsCopy = none) :
    d.content? b.file = some image ∧ d.content? b.symbols = some symbols := by
  have hkept {file copy : Path} {s s' : Logged Session} {found : Bool} (hs : restoreFile file copy s = .ok found s')
      (hnone : s.value.disk.content? copy = none) : s' = s := by
    rcases restoreFile_cases hs with ⟨-, hsame⟩ | ⟨d₁, d₂, hd₁, -, -⟩
    · exact hsame
    · obtain ⟨l, c, -, hfile, -⟩ := Disk.copy_ok.mp hd₁
      rw [Disk.content?_eq_some.mpr ⟨l, hfile⟩] at hnone
      cases hnone
  obtain ⟨s, t, found, rfl, hrestore, himage, hsymbols⟩ := h
  unfold Backup.restore at hrestore
  obtain ⟨_, s₁, hmodule, hrestore⟩ := edit_bind_ok.mp hrestore
  rw [hkept hmodule hcopy] at hrestore
  obtain ⟨_, s₂, hsymbolFile, hrestore⟩ := edit_bind_ok.mp hrestore
  cases hrestore
  rw [hkept hsymbolFile hsymbolsCopy] at himage hsymbols
  exact ⟨himage, hsymbols⟩

/--
The methods have the same points, but for the places of the instructions: `place` tells where the instructions of the
first method are in the second one, in the same order, and there they have new targets and new tokens only.
-/
structure Method.Keeps (renumber : Token → Token) (enter place : InstrId → InstrId) (a a' : Method) : Prop where
  increasing : ∀ id id', id.index < id'.index → (place id).index < (place id').index
  points : a'.points = a.points.map fun p => { p with instruction := place p.instruction }
  instructions : ∀ b ∈ a.body, ∃ b' ∈ a'.body, ∀ id i, b.code.get? id = some i →
    ∃ i', b'.code.get? (place id) = some i' ∧ (i.mapToken renumber).Carried enter i'

namespace Weave

variable {config : Config} {p : Path} {image symbols : List UInt8} {before after : Logged Session}
  {placed : List PlacedProbe} {files : Image.Files} {s s' : Logged Session} {b backup : Backup} {companion : Option Path}

/-! ## What is read again -/

theorem Marked.Becomes.keeps {c : Context} {opening : List Instruction} {f : Token → Token} {w : Marked} {r : Method}
    (h : w.Becomes c opening f r) (hparsed : ∀ b ∈ w.method.body, b.Parsed) :
    w.method.Keeps f (MethodBody.enterBehind opening (w.splicings c.api))
      (MethodBody.homeBehind opening (w.splicings c.api)) r where
  increasing id id' hlt :=
    Nat.add_lt_add_left (Nat.lt_of_lt_of_le (Splicing.home_lt_enter hlt) Splicing.enter_le_home) opening.length
  points := by rw [h.rest]
  instructions b hb := by
    have hbody := h.body
    rw [hb] at hbody
    obtain ⟨b', hb', hrewritten⟩ := exists_of_rel_some hbody
    exact ⟨b', hb', fun id i hi => hrewritten.exists_home (hparsed b hb) hi⟩

/-- The points that are read from the files are at the same instructions as those of the pristine module. -/
theorem Rewrites.exists_keeps (hconfig : config.Writable)
    (h : Rewrites config p image symbols before after placed files) :
    ∃ (m r : Module) (data : List UInt8), m.LoadedFrom image symbols ∧ files.symbols = some data ∧
      r.LoadedFrom files.image data ∧ r.methods.length = m.completed.methods.length ∧
      ∀ (i : Nat) (a : Method), m.completed.methods[i]? = some a → (a.points ≠ [] → i + 1 < 2 ^ 24) →
        ∃ a' enter place, r.methods[i]? = some a' ∧ a.Keeps m.renumber enter place a' := by
  obtain ⟨m, saved, data, hloaded, hdata, hreread, w, -⟩ := h.exists_woven hconfig
  refine ⟨m, saved.reread, data, hloaded, hdata, hreread, ?_, fun i a ha hrow => ?_⟩
  · rw [w.length_reread, Woven.originals, length_originals w.count, w.count]
  · have hparsed := Module.forall_mem_completed Module.parsed_emptyInitializer hloaded.parsed
    have hmethods : m.completed.methods = w.originals.map Marked.method := (map_method_originals w.count).symm
    have hbody := hparsed a (List.mem_of_getElem? ha)
    rw [hmethods, List.getElem?_map] at ha
    obtain ⟨o, ho, rfl⟩ := Option.map_eq_some_iff.mp ha
    obtain ⟨a', ha', hbecomes⟩ := w.becomes hparsed
      (Module.forall_mem_completed (Module.anchored_emptyInitializer _) hloaded.wellFormed.anchored) i o ho hrow
    exact ⟨a', _, _, ha', hbecomes.keeps hbody⟩

/-! ## One module -/

/-- The backup of a module that was probed is its own. -/
theorem backup_of_module (h : module config p s = .ok (.probed backup companion placed) s') :
    backup = Backup.of p config.backupSuffix := by
  obtain ⟨found, t, t', -, -, h⟩ := exists_restored h
  generalize Backup.of p config.backupSuffix = b at h
  unfold restored at h
  obtain ⟨isFile, t₁, -, h⟩ := edit_bind_ok.mp h
  split at h
  · cases (skip_ok h).1
  · obtain ⟨m, u, -, h⟩ := edit_bind_ok.mp h
    cases hdocuments : m.documents with
    | none =>
      rw [hdocuments] at h
      cases (skip_ok h).1
    | some documents =>
      rw [hdocuments] at h
      dsimp only at h
      split at h
      · cases (skip_ok h).1
      · split at h
        · cases h
        · obtain ⟨_, s₁, -, h⟩ := edit_bind_ok.mp h
          obtain ⟨_, s₂, -, h⟩ := edit_bind_ok.mp h
          obtain ⟨_, s₃, -, h⟩ := edit_bind_ok.mp h
          obtain ⟨_, s₄, -, h⟩ := edit_bind_ok.mp h
          obtain ⟨_, s₅, -, h⟩ := edit_bind_ok.mp h
          obtain ⟨_, s₆, -, h⟩ := edit_bind_ok.mp h
          cases h
          rfl

end Weave

namespace Run

open Session (Changes)

/-- On the disk after a run, the files of a module are what was written together for its files on the disk before. -/
def Paired (config : Config) (d d' : Disk) (p : Path) : Prop :=
  ∃ (image symbols : List UInt8) (before after : Logged Session) (placed : List PlacedProbe) (files : Image.Files)
    (data : List UInt8), (Backup.of p config.backupSuffix).Restores d image symbols ∧
    Weave.Rewrites config p image symbols before after placed files ∧ files.symbols = some data ∧
    d'.content? p = some files.image ∧ d'.content? (SymbolFile.pathFor p) = some data

/-- What is written for one module takes the place of no file or copy of another module. -/
def Undisturbed (config : Config) (ps : List Path) (d : Disk) : Prop :=
  ∀ p ∈ ps, ∀ q ∈ ps, p.same q = false → ∀ r ∈ Weave.writes config p, (Backup.of q config.backupSuffix).Aside d r

variable {config : Config} {p q : Path} {ps qs seen : List Path} {d d' d'' : Disk} {s s' t : Logged Session}
  {report r : Report} {b backup : Backup} {outcome : Outcome}

theorem Undisturbed.within (h : Undisturbed config ps d) (hd : d.Within qs d') : Undisturbed config ps d' :=
  fun p hp q hq hsame r hr t ht => hd.apart (h p hp q hq hsame r hr t ht)

theorem Undisturbed.subset (h : Undisturbed config ps d) (hsub : qs ⊆ ps) : Undisturbed config qs d :=
  fun p hp q hq => h p (hsub hp) q (hsub hq)

/-! ## Changes by other modules -/

section Elsewhere

variable {image symbols : List UInt8}

theorem restores_earlier (h : b.Restores d' image symbols) (hd : d.Within qs d') (haside : ∀ r ∈ qs, b.Aside d r) :
    b.Restores d image symbols := by
  obtain ⟨s, t, found, rfl, hrestore, himage, hsymbols⟩ := h
  have hagree : Session.Agree b.paths s { s with value := { s.value with disk := d } } := by
    refine ⟨⟨hd.folders.symm, fun q hq => ?_⟩, rfl, rfl⟩
    exact (hd.content?_eq fun r hr => haside r hr q hq).symm
  obtain ⟨t', ht', halike⟩ := (Backup.restore_lockstep b).follow hagree hrestore
  have hcontents := (hagree.changed halike).disks.contents
  exact ⟨_, t', found, rfl, ht', (hcontents _ b.file_mem_paths).trans himage,
    (hcontents _ b.symbols_mem_paths).trans hsymbols⟩

theorem Paired.earlier (h : Paired config d' d'' p) (hd : d.Within qs d')
    (haside : ∀ r ∈ qs, (Backup.of p config.backupSuffix).Aside d r) : Paired config d d'' p := by
  obtain ⟨image, symbols, before, after, placed, files, data, hrestores, hrest⟩ := h
  exact ⟨image, symbols, before, after, placed, files, data, restores_earlier hrestores hd haside, hrest⟩

theorem Paired.later (h : Paired config d d' p) (hd : d'.Within qs d'')
    (haside : ∀ r ∈ qs, (Backup.of p config.backupSuffix).Aside d' r) : Paired config d d'' p := by
  obtain ⟨image, symbols, before, after, placed, files, data, hrestores, hrewrites, hdata, himage, hsymbols⟩ := h
  have hfile := Backup.file_mem_paths (Backup.of p config.backupSuffix)
  have hsymbolsFile := Backup.symbols_mem_paths (Backup.of p config.backupSuffix)
  rw [Backup.file_of] at hfile
  rw [Backup.symbols_of] at hsymbolsFile
  refine ⟨image, symbols, before, after, placed, files, data, hrestores, hrewrites, hdata, ?_, ?_⟩
  · rw [hd.content?_eq fun r hr => haside r hr _ hfile]
    exact himage
  · rw [hd.content?_eq fun r hr => haside r hr _ hsymbolsFile]
    exact hsymbols

end Elsewhere

/-! ## Runs -/

theorem paired_of_module {companion : Option Path} {placed : List PlacedProbe}
    (h : Weave.module config p s = .ok (.probed backup companion placed) s') :
    Paired config s.value.disk s'.value.disk p := by
  obtain ⟨found, t, image, symbols, before, after, files, hrestore, himage, hsymbols, hrewrites, himage', hsymbols'⟩ :=
    Weave.exists_rewrites h
  obtain ⟨data, hdata⟩ := hrewrites.exists_symbols
  rw [← Backup.symbols_of p config.backupSuffix] at hsymbols
  exact ⟨image, symbols, before, after, _, files, data, ⟨s, t, found, rfl, hrestore, himage, hsymbols⟩, hrewrites,
    hdata, himage', hsymbols'.trans hdata⟩

theorem backups_foldl_addProbe (r : Report) (placed : List PlacedProbe) :
    (placed.foldl Report.addProbe r).backups = r.backups := by
  induction placed generalizing r with
  | nil => rfl
  | cons p placed ih => exact ih (r.addProbe p)

theorem mem_backups_addOutcome (h : backup ∈ (report.addOutcome outcome).backups) :
    backup ∈ report.backups ∨ ∃ companion placed, outcome = .probed backup companion placed := by
  cases outcome with
  | skipped reason => exact .inl h
  | probed own companion placed =>
    unfold Report.addOutcome at h
    rw [backups_foldl_addProbe] at h
    have hbackups : backup ∈ report.backups ++ [own] := by
      cases companion with
      | none => exact h
      | some p =>
        dsimp only at h
        unfold Report.addCompanion at h
        split at h <;> exact h
    rcases List.mem_append.mp hbackups with hmem | hmem
    · exact .inl hmem
    · obtain rfl := List.mem_singleton.mp hmem
      exact .inr ⟨companion, placed, rfl⟩

theorem modules_paired (hundisturbed : Undisturbed config ps s.value.disk)
    (h : modules config ps seen report s = .ok r s') : ∀ backup ∈ r.backups, backup ∈ report.backups ∨
      ∃ p ∈ pending ps seen, backup = Backup.of p config.backupSuffix ∧ Paired config s.value.disk s'.value.disk p := by
  induction ps generalizing seen report s with
  | nil =>
    cases h
    exact fun _ hbackup => .inl hbackup
  | cons p ps ih =>
    rcases modules_cons_ok.mp h with ⟨hseen, h⟩ | ⟨hseen, outcome, t, hmodule, h⟩
    · rw [pending_cons_seen hseen]
      exact ih (s := { s with log := s.log.push (.repeated p) })
        (hundisturbed.subset (List.subset_cons_self p ps)) h
    · have hchanges : Changes (Weave.writes config p) s t := (Weave.module_writes config p).ok hmodule
      have hlater := (modules_writes ps (p :: seen) _).ok h
      rw [pending_cons hseen]
      intro backup hbackup
      rcases ih ((hundisturbed.subset (List.subset_cons_self p ps)).within hchanges) h backup hbackup with
        hbackup | ⟨q, hq, rfl, hpaired⟩
      · rcases mem_backups_addOutcome hbackup with hbackup | ⟨companion, placed, rfl⟩
        · exact .inl hbackup
        · exact .inr ⟨p, List.mem_cons_self, Weave.backup_of_module hmodule,
            (paired_of_module hmodule).later hlater (aside_of_later (hundisturbed.within hchanges))⟩
      · exact .inr ⟨q, List.mem_cons_of_mem p ((pending_cons_sublist p ps seen).subset hq), rfl,
          hpaired.earlier hchanges (aside_of_earlier hundisturbed hq)⟩

/--
Every module that a run reports has its own symbol file when the run ends: its files are what was written together for
the files that its backup gave back. Read from these files, the module has its points at the instructions where they
were. Rows have 24 bits: no token names the method at row `2 ^ 24`, and it has no points.
-/
theorem symbols_paired (h : Undisturbed config ps s.value.disk) (hrun : run config ps s = .ok r s') :
    ∀ backup ∈ r.backups, ∃ p ∈ ps, backup = Backup.of p config.backupSuffix ∧
      ∃ (image symbols : List UInt8) (before after : Logged Session) (placed : List PlacedProbe) (files : Image.Files)
        (data : List UInt8), backup.Restores s.value.disk image symbols ∧
        Weave.Rewrites config p image symbols before after placed files ∧ files.symbols = some data ∧
        s'.value.disk.read p = .ok files.image ∧ s'.value.disk.read (SymbolFile.pathFor p) = .ok data ∧
        (config.Writable → ∃ (m loaded : Module) (u : Logged Session), m.LoadedFrom image symbols ∧
          Session.loadModule p s' = .ok loaded u ∧ loaded.methods.length = m.completed.methods.length ∧
          ∀ (i : Nat) (a : Method), m.completed.methods[i]? = some a → (a.points ≠ [] → i + 1 < 2 ^ 24) →
            ∃ a' enter place, loaded.methods[i]? = some a' ∧ a.Keeps m.renumber enter place a') := by
  obtain ⟨u, hmodules, rfl⟩ := run_eq_ok.mp hrun
  intro backup hbackup
  rcases modules_paired (s := ⟨{ disk := s.value.disk }, s.log⟩) h hmodules backup hbackup with
    hstart | ⟨p, hp, rfl, image, symbols, before, after, placed, files, data, hrestores, hrewrites, hdata, himage, hsymbols⟩
  · cases hstart
  · refine ⟨p, (pending_sublist ps []).subset hp, rfl, image, symbols, before, after, placed, files, data, hrestores,
      hrewrites, hdata, Disk.read_ok.mpr himage, Disk.read_ok.mpr hsymbols, fun hconfig => ?_⟩
    obtain ⟨m, loaded, data', hm, hdata', hloaded, hlength, hmethods⟩ := hrewrites.exists_keeps hconfig
    rw [hdata] at hdata'
    cases hdata'
    obtain ⟨v, hload, -⟩ := hloaded.loadModule (s := ⟨{ s.value with disk := u.value.disk },
      u.log.push (.finished r.backups.length ps.length u.value.ids.taken r.files.length)⟩) himage hsymbols
    exact ⟨m, loaded, v, hm, hload, hlength, hmethods⟩

/-! ## Small runs -/

open Backup (apart_of_place?_ne smallConfig smallDisk smallImage smallSymbols)

/-- The opcodes of the instructions with points. -/
def pointed (m : Module) : List (Option Opcode) :=
  m.methods.flatMap fun method => method.points.map fun p =>
    (method.body.bind fun b => b.code.get? p.instruction).map Instruction.opcode

/-- Of two modules, each has its own symbol file, and its point is read at the instruction where it was. -/
theorem symbols_paired_two : ∃ (r : Report) (s' u : Logged Session) (m loaded : Module) (a a' : Method)
    (enter place : InstrId → InstrId),
    Undisturbed (smallConfig "~") [⟨"/w/a.dll"⟩, ⟨"/w/b.dll"⟩, ⟨"/w//a.dll"⟩] twoModules ∧
    run (smallConfig "~") [⟨"/w/a.dll"⟩, ⟨"/w/b.dll"⟩, ⟨"/w//a.dll"⟩] ⟨{ disk := twoModules }, #[]⟩ = .ok r s' ∧
    Backup.of ⟨"/w/b.dll"⟩ "~" ∈ r.backups ∧ m.LoadedFrom smallImage smallSymbols ∧
    Session.loadModule ⟨"/w/b.dll"⟩ s' = .ok loaded u ∧ m.completed.methods[0]? = some a ∧ loaded.methods[0]? = some a' ∧
    a.points.length = 1 ∧ a.Keeps m.renumber enter place a' := by
  have hplaces : ∀ p ∈ [⟨"/w/a.dll"⟩, ⟨"/w/b.dll"⟩, (⟨"/w//a.dll"⟩ : Path)],
      ∀ q ∈ [⟨"/w/a.dll"⟩, ⟨"/w/b.dll"⟩, (⟨"/w//a.dll"⟩ : Path)],
        p.same q = false → ∀ r ∈ Weave.writes (smallConfig "~") p, ∀ t ∈ (Backup.of q "~").paths,
          twoModules.place? r ≠ twoModules.place? t := by decide +kernel
  have hundisturbed : Undisturbed (smallConfig "~") [⟨"/w/a.dll"⟩, ⟨"/w/b.dll"⟩, ⟨"/w//a.dll"⟩] twoModules :=
    fun p hp q hq hsame r hr t ht => apart_of_place?_ne (hplaces p hp q hq hsame r hr t ht)
  have hconfig : (smallConfig "~").Writable := by
    constructor <;> (unfold Field.Writable; decide +kernel)
  obtain ⟨r, s', hrun, hbackup⟩ : ∃ r s',
      run (smallConfig "~") [⟨"/w/a.dll"⟩, ⟨"/w/b.dll"⟩, ⟨"/w//a.dll"⟩] ⟨{ disk := twoModules }, #[]⟩ = .ok r s' ∧
      Backup.of ⟨"/w/b.dll"⟩ "~" ∈ r.backups := by
    decide +kernel
  obtain ⟨p, -, hb, image, symbols, _, _, _, _, _, hrestores, -, -, -, -, hloads⟩ :=
    symbols_paired hundisturbed hrun _ hbackup
  obtain rfl : ⟨"/w/b.dll"⟩ = p := congrArg Backup.file hb
  obtain ⟨himage, hsymbols⟩ := hrestores.contents (by decide +kernel) (by decide +kernel)
  have hsmall : twoModules.content? ⟨"/w/b.dll"⟩ = some smallImage ∧
      twoModules.content? (SymbolFile.pathFor ⟨"/w/b.dll"⟩) = some smallSymbols := by decide +kernel
  obtain rfl : image = smallImage := Option.some_inj.mp (himage.symm.trans hsmall.1)
  obtain rfl : symbols = smallSymbols := Option.some_inj.mp (hsymbols.symm.trans hsmall.2)
  obtain ⟨m, loaded, u, hm, hloaded, -, hkeeps⟩ := hloads hconfig
  obtain ⟨_, _, hload, a, ha, hpoints⟩ : ∃ m u, (Session.loadModule ⟨"/w/b.dll"⟩).run ⟨{ disk := twoModules }, #[]⟩ =
      .ok m u ∧ ∃ a, m.completed.methods[0]? = some a ∧ a.points.length = 1 := by
    decide +kernel
  obtain ⟨_, hload', -⟩ := hm.loadModule (s := ⟨{ disk := twoModules }, #[]⟩) hsmall.1 hsmall.2
  obtain ⟨rfl, -⟩ := EStateM.Result.ok.inj (hload.symm.trans hload')
  obtain ⟨a', enter, place, ha', hkept⟩ := hkeeps 0 a ha fun _ => by decide
  exact ⟨r, s', u, _, loaded, a, a', enter, place, hundisturbed, hrun, hbackup, hm, hloaded, ha, ha', hpoints, hkept⟩

/-- A module that holds no methods. -/
def bareImage : List UInt8 :=
  [0x43, 0x49, 0x4C, 0x4D, 1, 0, 0, 0, 1, 0x65, 0, 0, 0, 1, 0, 0, 0, 0, 0, 8, 0x3C, 0x4D, 0x6F, 0x64, 0x75, 0x6C, 0x65,
    0x3E, 0, 0]

/-- A run probes a module, and then its points are read at other instructions. -/
def unpaired (config : Config) (ps : List Path) (d : Disk) (p : Path) : Bool :=
  match run config ps ⟨{ disk := d }, #[]⟩ with
  | .ok r s =>
    match Session.loadModule p ⟨{ disk := d }, #[]⟩, Session.loadModule p s with
    | .ok m _, .ok m' _ => r.backups.contains (Backup.of p config.backupSuffix) && pointed m != pointed m'
    | _, _ => false
  | .error _ _ => false

theorem exists_unpaired (h : unpaired config ps d p = true) : ∃ r s' m m' u u',
    run config ps ⟨{ disk := d }, #[]⟩ = .ok r s' ∧ Backup.of p config.backupSuffix ∈ r.backups ∧
    Session.loadModule p ⟨{ disk := d }, #[]⟩ = .ok m u ∧ Session.loadModule p s' = .ok m' u' ∧
    pointed m ≠ pointed m' := by
  unfold unpaired at h
  cases hrun : run config ps ⟨{ disk := d }, #[]⟩ with
  | error fault s' =>
    rw [hrun] at h
    cases h
  | ok r s' =>
    rw [hrun] at h
    dsimp only at h
    split at h
    · next m u m' u' hload hload' =>
      obtain ⟨hbackup, hne⟩ := Bool.and_eq_true_iff.mp h
      exact ⟨r, s', m, m', u, u', rfl, List.elem_iff.mp hbackup, hload, hload', bne_iff_ne.mp hne⟩
    · cases h

/-- A module that is probed when nothing was done yet is reported by a run over it. -/
theorem exists_run {placed : List PlacedProbe}
    (h : Weave.module config p ⟨{ disk := d }, #[]⟩ = .ok (.probed backup none placed) t) :
    ∃ r s', run config [p] ⟨{ disk := d }, #[]⟩ = .ok r s' ∧ backup ∈ r.backups ∧ s'.value.disk = t.value.disk := by
  refine ⟨_, _, run_eq_ok.mpr ⟨t, modules_cons_ok.mpr (.inr ⟨rfl, _, t, h, rfl⟩), rfl⟩, ?_, rfl⟩
  unfold Report.addOutcome
  rw [backups_foldl_addProbe]
  exact List.mem_append_right _ List.mem_cons_self

/-- Two modules with one symbol file. -/
def sharedDisk : Disk where
  working := [['w']]
  entries := ([['w'], ['a', '.', 'e', 'x', 'e']], .file bareImage) :: (smallDisk []).entries

/-- A module whose symbol file is where the copy of the symbol file of another one would be. -/
def copyDisk : Disk where
  working := [['w']]
  entries := ([['w'], ['b', '.', 'p', 'd', 'b', '.', 'd', 'l', 'l']], .file smallImage) ::
    ([['w'], ['b', '.', 'p', 'd', 'b', '.', 'p', 'd', 'b']], .file smallSymbols) ::
    ([['w'], ['b', '.', 'd', 'l', 'l']], .file bareImage) ::
    ([['w'], ['b', '.', 'p', 'd', 'b']], .file smallSymbols) :: (smallDisk []).entries

/-- A companion that is named like a symbol file. -/
def namesakeDisk : Disk where
  working := [['w']]
  entries := ([['w'], ['c']], .folder) :: ([['w'], ['c'], ['a', '.', 'p', 'd', 'b']], .file smallSymbols) ::
    twoModules.entries

def namesakeConfig : Config :=
  { smallConfig "~" with companion := some ⟨"/w/c/a.pdb"⟩ }

/--
Modules that do not have their own symbol files when a run ends: two modules have one symbol file; the copy for one
module is the symbol file of another one; the companion takes the place of a symbol file. Modules that have theirs, but
are not loaded with all their points: the marker is a text of 4 GiB; an initializer moves the last of `2 ^ 24 - 1` methods
to a row that no token has room for.
-/
theorem symbols_unpaired :
    (∃ r s' m m' u u', run (smallConfig "~") [⟨"/w/a.dll"⟩, ⟨"/w/a.exe"⟩] ⟨{ disk := sharedDisk }, #[]⟩ = .ok r s' ∧
      Backup.of ⟨"/w/a.dll"⟩ "~" ∈ r.backups ∧ Session.loadModule ⟨"/w/a.dll"⟩ ⟨{ disk := sharedDisk }, #[]⟩ = .ok m u ∧
      Session.loadModule ⟨"/w/a.dll"⟩ s' = .ok m' u' ∧ pointed m ≠ pointed m') ∧
    (∃ r s' m m' u u', run (smallConfig ".pdb") [⟨"b.pdb.dll"⟩, ⟨"b.dll"⟩] ⟨{ disk := copyDisk }, #[]⟩ = .ok r s' ∧
      Backup.of ⟨"b.pdb.dll"⟩ ".pdb" ∈ r.backups ∧
      Session.loadModule ⟨"b.pdb.dll"⟩ ⟨{ disk := copyDisk }, #[]⟩ = .ok m u ∧
      Session.loadModule ⟨"b.pdb.dll"⟩ s' = .ok m' u' ∧ pointed m ≠ pointed m') ∧
    (∃ r s' m m' u u', run namesakeConfig [⟨"/w/a.dll"⟩, ⟨"b.dll"⟩] ⟨{ disk := namesakeDisk }, #[]⟩ = .ok r s' ∧
      Backup.of ⟨"/w/a.dll"⟩ "~" ∈ r.backups ∧ Session.loadModule ⟨"/w/a.dll"⟩ ⟨{ disk := namesakeDisk }, #[]⟩ = .ok m u ∧
      Session.loadModule ⟨"/w/a.dll"⟩ s' = .ok m' u' ∧ pointed m ≠ pointed m') ∧
    (∃ r s' m u, run ((smallConfig "~").marking (oversized (2 ^ 32 - 3))) [⟨"/w/a.dll"⟩] ⟨{ disk := smallDisk [] }, #[]⟩ =
        .ok r s' ∧ Backup.of ⟨"/w/a.dll"⟩ "~" ∈ r.backups ∧
      Session.loadModule ⟨"/w/a.dll"⟩ ⟨{ disk := smallDisk [] }, #[]⟩ = .ok m u ∧
      ¬ ∃ m' u', Session.loadModule ⟨"/w/a.dll"⟩ s' = .ok m' u') ∧
    (∃ d r s' m m' u u' a a', run (smallConfig "~") [⟨"/w/a.dll"⟩] ⟨{ disk := d }, #[]⟩ = .ok r s' ∧
      Backup.of ⟨"/w/a.dll"⟩ "~" ∈ r.backups ∧ Session.loadModule ⟨"/w/a.dll"⟩ ⟨{ disk := d }, #[]⟩ = .ok m u ∧
      Session.loadModule ⟨"/w/a.dll"⟩ s' = .ok m' u' ∧ m'.methods.length = m.methods.length + 1 ∧
      m.methods[2 ^ 24 - 2]? = some a ∧ a.points.length = 1 ∧ m'.methods[2 ^ 24 - 1]? = some a' ∧ a'.points = []) := by
  have hshared : unpaired (smallConfig "~") [⟨"/w/a.dll"⟩, ⟨"/w/a.exe"⟩] sharedDisk ⟨"/w/a.dll"⟩ = true := by decide +kernel
  have hcopy : unpaired (smallConfig ".pdb") [⟨"b.pdb.dll"⟩, ⟨"b.dll"⟩] copyDisk ⟨"b.pdb.dll"⟩ = true := by
    decide +kernel
  have hnamesake : unpaired namesakeConfig [⟨"/w/a.dll"⟩, ⟨"b.dll"⟩] namesakeDisk ⟨"/w/a.dll"⟩ = true := by decide +kernel
  refine ⟨exists_unpaired hshared, exists_unpaired hcopy, exists_unpaired hnamesake, ?_, ?_⟩
  · obtain ⟨t, _, _, backup, placed, _, image, fault, hmodule, -, -, -, himage, hrefused⟩ :=
      Weave.refused_of_oversized (2 ^ 32 - 3) (by decide)
    obtain ⟨r, s', hrun, hbackup, hdisk⟩ := exists_run hmodule
    obtain ⟨m, u, hload, -⟩ : ∃ m u, (Session.loadModule ⟨"/w/a.dll"⟩).run ⟨{ disk := smallDisk [] }, #[]⟩ = .ok m u ∧
        True := by
      decide +kernel
    rw [← hdisk] at himage
    exact ⟨r, s', m, u, hrun, Weave.backup_of_module hmodule ▸ hbackup, hload, Session.not_loadModule himage hrefused⟩
  · obtain ⟨d, t, placed, m, m', a, a', hmodule, hm, hm', hlen, ha, hpoint, ha', hpoints⟩ := Weave.exists_crowded
    obtain ⟨r, s', hrun, hbackup, hdisk⟩ := exists_run hmodule
    obtain ⟨u, hload⟩ := hm.exists_loadModule (s := ⟨{ disk := d }, #[]⟩)
    obtain ⟨u', hload'⟩ := (hdisk ▸ hm').exists_loadModule (s := s')
    exact ⟨d, r, s', m, m', u, u', a, a', hrun, hbackup, hload, hload', hlen, ha, hpoint, ha', hpoints⟩

end Run

end CilProbes
