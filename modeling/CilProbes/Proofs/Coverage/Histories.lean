import CilProbes.Proofs.Coverage.Rewriting
import Mathlib.Logic.Relation

/-!
# Histories of a module file

A module may be probed and restored any number of times, and each time may end in any way. The pristine files are kept
all along (`Backup.Step.safe`), so a module is always probed from the pristine files, and is always restored to them
(`Backup.pristine_kept`).

This takes copies that are in different places. Paths of copies may lead to the same place through a folder named like
the module, and then the pristine module is lost (`Backup.copies_collide`).
-/

namespace CilProbes

namespace Backup

open Session (Changes Frame)

/--
One call on the disk: the module at a path is probed, with any settings that put the given suffix after copies and the
companion elsewhere, or its backup is restored.
-/
inductive Step (p : Path) (suffix : String) : Disk → Disk → Prop
  | probed {config : Config} {outcome : Outcome} {s s' : Logged Session} : config.backupSuffix = suffix →
      (∀ q ∈ Weave.companionPath? config p, (of p suffix).Aside s.value.disk q) →
        Weave.module config p s = .ok outcome s' → Step p suffix s.value.disk s'.value.disk
  | notProbed {config : Config} {fault : Fault} {s s' : Logged Session} : config.backupSuffix = suffix →
      (∀ q ∈ Weave.companionPath? config p, (of p suffix).Aside s.value.disk q) →
        Weave.module config p s = .error fault s' → Step p suffix s.value.disk s'.value.disk
  | restored {found : Bool} {s s' : Logged Session} : (of p suffix).restore s = .ok found s' →
      Step p suffix s.value.disk s'.value.disk
  | notRestored {fault : Fault} {s s' : Logged Session} : (of p suffix).restore s = .error fault s' →
      Step p suffix s.value.disk s'.value.disk

variable {p : Path} {suffix : String} {image symbols : List UInt8} {d d' : Disk} {s s' : Logged Session}

/-- Files that lie apart and have no copies are safe. -/
theorem safe_of_read (himage : d.read p = .ok image) (hsymbols : d.read (SymbolFile.pathFor p) = .ok symbols)
    (hcopy : d.isFile (of p suffix).copy = false) (hsymbolsCopy : d.isFile (of p suffix).symbolsCopy = false)
    (hfiles : d.Apart p (SymbolFile.pathFor p)) (hcopies : d.Apart (of p suffix).copy (of p suffix).symbolsCopy) :
    (of p suffix).Safe image symbols d := by
  have himage := Disk.read_ok.mp himage
  have hsymbols := Disk.read_ok.mp hsymbols
  have hcopy := Disk.isFile_eq_false.mp hcopy
  have hsymbolsCopy := Disk.isFile_eq_false.mp hsymbolsCopy
  -- A path to a file and a path to none lead to different places.
  have hapart {q r : Path} {c : List UInt8} (hq : d.content? q = some c) (hr : d.content? r = none) : d.Apart q r := by
    intro l hql hrl
    unfold Disk.content? at hq hr
    rw [hql] at hq
    rw [hrl] at hr
    rw [hr] at hq
    cases hq
  have hplace {q : Path} {c : List UInt8} (hq : d.content? q = some c) : ∃ l, d.place? q = some l := by
    obtain ⟨l, hl, _⟩ := Option.bind_eq_some_iff.mp hq
    exact ⟨l, hl⟩
  refine ⟨pairwise_paths.mpr ⟨⟨hapart himage hcopy, ?_, hapart himage hsymbolsCopy⟩, ⟨?_, hcopies⟩, ?_⟩,
    hplace himage, ?_, .inr ⟨hcopy, himage⟩, ?_⟩
  all_goals rw [symbols_of]
  · exact hfiles
  · exact (hapart hsymbols hcopy).symm
  · exact hapart hsymbols hsymbolsCopy
  · exact hplace hsymbols
  · exact .inr ⟨hsymbolsCopy, hsymbols⟩

/-- Whatever a call does, the pristine files are kept. -/
theorem Step.safe (h : Step p suffix d d') (hd : (of p suffix).Safe image symbols d) :
    (of p suffix).Safe image symbols d' := by
  cases h with
  | probed hsuffix hcompanion h =>
    subst hsuffix
    have hmeets := Weave.module_meets rfl hd hcompanion
    rw [h] at hmeets
    exact hmeets.1
  | notProbed hsuffix hcompanion h =>
    subst hsuffix
    have hmeets := Weave.module_meets rfl hd hcompanion
    rw [h] at hmeets
    exact hmeets.toSafe
  | restored h =>
    obtain ⟨found, t, hok, ht⟩ := restore_ok hd
    rw [h] at hok
    cases hok
    exact ht.toSafe
  | notRestored h =>
    obtain ⟨found, t, hok, ht⟩ := restore_ok hd
    rw [h] at hok
    cases hok

theorem safe_of_steps (h : Relation.ReflTransGen (Step p suffix) d d') (hd : (of p suffix).Safe image symbols d) :
    (of p suffix).Safe image symbols d' := by
  induction h with
  | refl => exact hd
  | tail _ hstep ih => exact hstep.safe ih

theorem Kept.read {file copy : Path} {content : List UInt8} (h : Kept d file copy content) :
    d.read copy = .ok content ∨ d.isFile copy = false ∧ d.read file = .ok content := by
  rcases h with hcopy | ⟨hcopy, hfile⟩
  · exact .inl (Disk.read_ok.mpr hcopy)
  · exact .inr ⟨Disk.isFile_eq_false.mpr hcopy, Disk.read_ok.mpr hfile⟩

/--
The pristine files of a module are never lost, and probes never pile up. After any calls on a module whose files and
copies lie apart, each of the files is in its copy, or is itself pristine if it has no copy. Restoring then gives both
pristine files. So does a call that leaves the module alone or fails, and a call that probes the module makes the new
files from the pristine ones.
-/
theorem pristine_kept (himage : d.read p = .ok image) (hsymbols : d.read (SymbolFile.pathFor p) = .ok symbols)
    (hcopy : d.isFile (of p suffix).copy = false) (hsymbolsCopy : d.isFile (of p suffix).symbolsCopy = false)
    (hfiles : d.Apart p (SymbolFile.pathFor p)) (hcopies : d.Apart (of p suffix).copy (of p suffix).symbolsCopy)
    (h : Relation.ReflTransGen (Step p suffix) d d') :
    (d'.read (of p suffix).copy = .ok image ∨ d'.isFile (of p suffix).copy = false ∧ d'.read p = .ok image) ∧
    (d'.read (of p suffix).symbolsCopy = .ok symbols ∨
      d'.isFile (of p suffix).symbolsCopy = false ∧ d'.read (SymbolFile.pathFor p) = .ok symbols) ∧
    (∀ s : Logged Session, s.value.disk = d' → ∃ found s', (of p suffix).restore s = .ok found s' ∧
      s'.value.disk.read p = .ok image ∧ s'.value.disk.read (SymbolFile.pathFor p) = .ok symbols) ∧
    ∀ (config : Config) (s : Logged Session), s.value.disk = d' → config.backupSuffix = suffix →
      (∀ q ∈ Weave.companionPath? config p, (of p suffix).Aside s.value.disk q) →
        match Weave.module config p s with
        | .ok (.probed _ _ placed) s' => ∃ before after files data,
            Weave.Rewrites config p image symbols before after placed files ∧ files.symbols = some data ∧
            s'.value.disk.read p = .ok files.image ∧ s'.value.disk.read (SymbolFile.pathFor p) = .ok data
        | .ok (.skipped _) s' | .error _ s' =>
            s'.value.disk.read p = .ok image ∧ s'.value.disk.read (SymbolFile.pathFor p) = .ok symbols := by
  have hsafe := safe_of_steps h (safe_of_read himage hsymbols hcopy hsymbolsCopy hfiles hcopies)
  have hread {e : Disk} (he : (of p suffix).Intact image symbols e) :
      e.read p = .ok image ∧ e.read (SymbolFile.pathFor p) = .ok symbols := by
    have hsymbols := he.symbolsContent
    rw [symbols_of] at hsymbols
    exact ⟨Disk.read_ok.mpr he.fileContent, Disk.read_ok.mpr hsymbols⟩
  have hkept := hsafe.keepsSymbols.read
  rw [symbols_of] at hkept
  refine ⟨hsafe.keepsFile.read, hkept, fun s hs => ?_, fun config s hs hsuffix hcompanion => ?_⟩
  · subst hs
    obtain ⟨found, s', hok, hrestored⟩ := restore_ok hsafe
    exact ⟨found, s', hok, hread hrestored.toIntact⟩
  · subst hs hsuffix
    have hmeets := Weave.module_meets rfl hsafe hcompanion
    cases hmodule : Weave.module config p s with
    | error fault s' =>
      rw [hmodule] at hmeets
      exact hread hmeets
    | ok outcome s' =>
      rw [hmodule] at hmeets
      obtain ⟨-, ⟨reason, rfl, hintact, -⟩ | ⟨companion, placed, before, after, files, rfl, hrewrites, hnew, hdata, -⟩⟩ :=
        hmeets
      · exact hread hintact
      · obtain ⟨data, hsome⟩ := hrewrites.exists_symbols
        rw [symbols_of, hsome] at hdata
        exact ⟨before, after, files, data, hrewrites, hsome, Disk.read_ok.mpr hnew, Disk.read_ok.mpr hdata⟩

/-! ## A module of one instruction -/

/-- The image of a module with a method that returns at once. -/
def smallImage : List UInt8 :=
  [0x43, 0x49, 0x4C, 0x4D, 1, 0, 0, 0, 1, 0x61, 0, 0, 0, 1, 0, 0, 0, 0, 0, 8, 0x3C, 0x4D, 0x6F, 0x64, 0x75, 0x6C, 0x65,
    0x3E, 1, 0x16, 0, 0, 0, 1, 0x66, 0, 1, 2, 0x06, 0x2A, 0]

/-- Its symbol file, with one point. -/
def smallSymbols : List UInt8 :=
  [0x43, 0x50, 0x44, 0x42, 1, 0, 1, 6, 0x2F, 0x77, 0x2F, 0x73, 0x2F, 0x64, 1, 1, 0, 0, 6, 6, 1, 0, 0, 2, 1, 1]

/-- A disk with the module, its source and some empty folders in the folder `/w`, which is the working folder. -/
def smallDisk (folders : List String) : Disk where
  working := [['w']]
  entries := [([], .folder), ([['w']], .folder), ([['w'], ['a', '.', 'd', 'l', 'l']], .file smallImage),
    ([['w'], ['a', '.', 'p', 'd', 'b']], .file smallSymbols), ([['w'], ['s']], .folder),
    ([['w'], ['s'], ['d']], .file [0x78, 0x3B, 0x0A])] ++ folders.map fun name => ([['w'], name.toList], .folder)

example : (smallDisk []).place? ⟨"/w/a.dll"⟩ = (smallDisk []).place? ⟨"s/../a.dll"⟩ := by decide +kernel

def smallConfig (suffix : String) : Config where
  hitsFile := "h"
  scope := .below "/w/s" ["/w/s/d"]
  backupSuffix := suffix

theorem apart_of_place?_ne {q r : Path} (h : d.place? q ≠ d.place? r) : d.Apart q r :=
  fun _ hq hr => h (hq.trans hr.symm)

/-- A module that was probed has pristine copies, and can be restored. -/
theorem pristine_kept_probed : ∃ d', Step ⟨"/w/a.dll"⟩ "~" (smallDisk []) d' ∧ d'.read ⟨"/w/a.dll"⟩ ≠ .ok smallImage ∧
    d'.read (of ⟨"/w/a.dll"⟩ "~").copy = .ok smallImage ∧
    ∀ s : Logged Session, s.value.disk = d' → ∃ found s', (of ⟨"/w/a.dll"⟩ "~").restore s = .ok found s' ∧
      s'.value.disk.read ⟨"/w/a.dll"⟩ = .ok smallImage := by
  have hfiles : (smallDisk []).Apart ⟨"/w/a.dll"⟩ (SymbolFile.pathFor ⟨"/w/a.dll"⟩) := apart_of_place?_ne (by decide +kernel)
  have hcopies : (smallDisk []).Apart (of ⟨"/w/a.dll"⟩ "~").copy (of ⟨"/w/a.dll"⟩ "~").symbolsCopy :=
    apart_of_place?_ne (by decide +kernel)
  have himage : (smallDisk []).read ⟨"/w/a.dll"⟩ = .ok smallImage := by decide +kernel
  have hsymbols : (smallDisk []).read (SymbolFile.pathFor ⟨"/w/a.dll"⟩) = .ok smallSymbols := by decide +kernel
  have hcheck : (match Weave.module (smallConfig "~") ⟨"/w/a.dll"⟩ ⟨{ disk := smallDisk [] }, #[]⟩ with
      | .ok _ s => decide (s.value.disk.read ⟨"/w/a.dll"⟩ ≠ .ok smallImage ∧
          s.value.disk.isFile (of ⟨"/w/a.dll"⟩ "~").copy = true)
      | .error _ _ => false) = true := by
    decide +kernel
  cases hmodule : Weave.module (smallConfig "~") ⟨"/w/a.dll"⟩ ⟨{ disk := smallDisk [] }, #[]⟩ with
  | error fault s =>
    rw [hmodule] at hcheck
    cases hcheck
  | ok outcome s =>
    rw [hmodule] at hcheck
    obtain ⟨hnew, hisFile⟩ := of_decide_eq_true hcheck
    have hstep : Step ⟨"/w/a.dll"⟩ "~" (smallDisk []) s.value.disk :=
      .probed rfl (fun _ hq => by cases hq) hmodule
    obtain ⟨hcopy | ⟨hnone, -⟩, -, hrestore, -⟩ := pristine_kept himage hsymbols (by decide +kernel)
      (by decide +kernel) hfiles hcopies (.single hstep)
    · refine ⟨s.value.disk, hstep, hnew, hcopy, fun t ht => ?_⟩
      obtain ⟨found, t', hok, hread, -⟩ := hrestore t ht
      exact ⟨found, t', hok, hread⟩
    · rw [hisFile] at hnone
      cases hnone

/-- Two copies at one place: the module is lost when it is restored. -/
theorem copies_collide : ∃ d d' d'' : Disk, d.read ⟨"/w/a.dll"⟩ = .ok smallImage ∧
    d.read (SymbolFile.pathFor ⟨"/w/a.dll"⟩) = .ok smallSymbols ∧ d.isFile (of ⟨"/w/a.dll"⟩ "d/../x").copy = false ∧
    d.isFile (of ⟨"/w/a.dll"⟩ "d/../x").symbolsCopy = false ∧ d.Apart ⟨"/w/a.dll"⟩ (SymbolFile.pathFor ⟨"/w/a.dll"⟩) ∧
    Step ⟨"/w/a.dll"⟩ "d/../x" d d' ∧ Step ⟨"/w/a.dll"⟩ "d/../x" d' d'' ∧
    ¬(d''.read (of ⟨"/w/a.dll"⟩ "d/../x").copy = .ok smallImage ∨
      d''.isFile (of ⟨"/w/a.dll"⟩ "d/../x").copy = false ∧ d''.read ⟨"/w/a.dll"⟩ = .ok smallImage) := by
  have hfiles : (smallDisk ["a.dlld", "a.pdbd"]).Apart ⟨"/w/a.dll"⟩ (SymbolFile.pathFor ⟨"/w/a.dll"⟩) :=
    apart_of_place?_ne (by decide +kernel)
  have hcheck : (match Weave.module (smallConfig "d/../x") ⟨"/w/a.dll"⟩
      ⟨{ disk := smallDisk ["a.dlld", "a.pdbd"] }, #[]⟩ with
      | .ok _ s =>
        match (of ⟨"/w/a.dll"⟩ "d/../x").restore s with
        | .ok _ s => decide ¬(s.value.disk.read (of ⟨"/w/a.dll"⟩ "d/../x").copy = .ok smallImage ∨
            s.value.disk.isFile (of ⟨"/w/a.dll"⟩ "d/../x").copy = false ∧ s.value.disk.read ⟨"/w/a.dll"⟩ = .ok smallImage)
        | .error _ _ => false
      | .error _ _ => false) = true := by
    decide +kernel
  cases hmodule : Weave.module (smallConfig "d/../x") ⟨"/w/a.dll"⟩ ⟨{ disk := smallDisk ["a.dlld", "a.pdbd"] }, #[]⟩ with
  | error fault s =>
    rw [hmodule] at hcheck
    cases hcheck
  | ok outcome s =>
    rw [hmodule] at hcheck
    dsimp only at hcheck
    split at hcheck
    · next found t hrestore =>
      exact ⟨smallDisk ["a.dlld", "a.pdbd"], s.value.disk, t.value.disk, by decide +kernel, by decide +kernel,
        by decide +kernel, by decide +kernel, hfiles, .probed rfl
          (fun _ hq => by cases hq) hmodule, .restored hrestore, of_decide_eq_true hcheck⟩
    · cases hcheck

end Backup

end CilProbes
