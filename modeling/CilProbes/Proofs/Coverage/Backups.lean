import CilProbes.Coverage.Backup
import CilProbes.Proofs.Coverage.Sessions

/-!
# Backups keep what they copy

A backup is safe (`Backup.Safe`) if the pristine content of each file is in its copy, or in the file itself while there
is no copy. Restoring a safe backup puts both files back and leaves no copies (`Backup.restore_ok`). Taking a backup
may fail halfway and is safe even then (`Backup.create_meets`).
-/

namespace CilProbes

namespace Backup

open Session (Changes Frame)

/-- All files of the backup. -/
def paths (b : Backup) : List Path :=
  [b.file, b.copy, b.symbols, b.symbolsCopy]

theorem file_of (p : Path) (suffix : String) : (of p suffix).file = p :=
  rfl

theorem symbols_of (p : Path) (suffix : String) : (of p suffix).symbols = SymbolFile.pathFor p := by
  simp only [of]

theorem symbolsCopy_of (p : Path) (suffix : String) :
    (of p suffix).symbolsCopy = (SymbolFile.pathFor p).append suffix := by
  simp only [of]

theorem mem_paths_of (p : Path) (suffix : String) : p ∈ (of p suffix).paths := by
  simp [paths, of]

theorem file_mem_paths (b : Backup) : b.file ∈ b.paths := by
  simp [paths]

theorem copy_mem_paths (b : Backup) : b.copy ∈ b.paths := by
  simp [paths]

theorem symbols_mem_paths (b : Backup) : b.symbols ∈ b.paths := by
  simp [paths]

/-- The content is in the copy, or in the file if there is no copy. -/
def Kept (d : Disk) (file copy : Path) (content : List UInt8) : Prop :=
  d.content? copy = some content ∨ d.content? copy = none ∧ d.content? file = some content

/-- The pristine content of both files is kept, and no two files of the backup are in each other's way. -/
structure Safe (b : Backup) (image symbols : List UInt8) (d : Disk) : Prop where
  apart : b.paths.Pairwise d.Apart
  filePlace : ∃ l, d.place? b.file = some l
  symbolsPlace : ∃ l, d.place? b.symbols = some l
  keepsFile : Kept d b.file b.copy image
  keepsSymbols : Kept d b.symbols b.symbolsCopy symbols

/-- The files themselves are pristine, too. -/
structure Intact (b : Backup) (image symbols : List UInt8) (d : Disk) : Prop extends b.Safe image symbols d where
  fileContent : d.content? b.file = some image
  symbolsContent : d.content? b.symbols = some symbols

/-- The files are pristine, and there are no copies. -/
structure Restored (b : Backup) (image symbols : List UInt8) (d : Disk) : Prop extends b.Intact image symbols d where
  noCopy : d.content? b.copy = none
  noSymbolsCopy : d.content? b.symbolsCopy = none

/-- Both files have copies. -/
structure Copied (b : Backup) (image symbols : List UInt8) (d : Disk) : Prop extends b.Intact image symbols d where
  copyContent : d.content? b.copy = some image
  symbolsCopyContent : d.content? b.symbolsCopy = some symbols

/-- The path leads to none of the files of the backup. -/
def Aside (b : Backup) (d : Disk) (p : Path) : Prop :=
  ∀ q ∈ b.paths, d.Apart p q

variable {b : Backup} {image symbols c : List UInt8} {d d' : Disk} {file copy : Path} {ps : List Path}
  {s s' : Logged Session}

/-! ## Changes elsewhere -/

theorem Kept.within (h : Kept d file copy c) (hd : d.Within ps d') (hfile : ∀ p ∈ ps, d.Apart p file)
    (hcopy : ∀ p ∈ ps, d.Apart p copy) : Kept d' file copy c := by
  unfold Kept
  rw [hd.content?_eq hfile, hd.content?_eq hcopy]
  exact h

theorem pairwise_within (h : b.paths.Pairwise d.Apart) (hd : d.Within ps d') : b.paths.Pairwise d'.Apart :=
  h.imp fun hpq => hd.apart hpq

section Elsewhere

variable (hd : d.Within ps d') (haside : ∀ p ∈ ps, b.Aside d p)
include hd haside

theorem content?_within {q : Path} (hq : q ∈ b.paths) : d'.content? q = d.content? q :=
  hd.content?_eq fun p hp => haside p hp q hq

theorem Safe.within (h : b.Safe image symbols d) : b.Safe image symbols d' where
  apart := pairwise_within h.apart hd
  filePlace := by
    rw [hd.place?_eq]
    exact h.filePlace
  symbolsPlace := by
    rw [hd.place?_eq]
    exact h.symbolsPlace
  keepsFile := h.keepsFile.within hd (fun p hp => haside p hp _ (by simp [paths]))
    (fun p hp => haside p hp _ (by simp [paths]))
  keepsSymbols := h.keepsSymbols.within hd (fun p hp => haside p hp _ (by simp [paths]))
    (fun p hp => haside p hp _ (by simp [paths]))

theorem Intact.within (h : b.Intact image symbols d) : b.Intact image symbols d' where
  toSafe := h.toSafe.within hd haside
  fileContent := by
    rw [content?_within hd haside (by simp [paths])]
    exact h.fileContent
  symbolsContent := by
    rw [content?_within hd haside (by simp [paths])]
    exact h.symbolsContent

theorem Restored.within (h : b.Restored image symbols d) : b.Restored image symbols d' where
  toIntact := h.toIntact.within hd haside
  noCopy := by
    rw [content?_within hd haside (by simp [paths])]
    exact h.noCopy
  noSymbolsCopy := by
    rw [content?_within hd haside (by simp [paths])]
    exact h.noSymbolsCopy

theorem Copied.within (h : b.Copied image symbols d) : b.Copied image symbols d' where
  toIntact := h.toIntact.within hd haside
  copyContent := by
    rw [content?_within hd haside (by simp [paths])]
    exact h.copyContent
  symbolsCopyContent := by
    rw [content?_within hd haside (by simp [paths])]
    exact h.symbolsCopyContent

end Elsewhere

/-! ## Restoring -/

theorem restoreFile_steps (hfile : file ∈ ps) (hcopy : copy ∈ ps) : Edit.Steps (Frame ps) (restoreFile file copy) := by
  refine (Session.isFile_steps copy).bind fun found => ?_
  split
  · exact (Session.copy_steps hfile).bind fun _ => (Session.remove_steps hcopy).bind fun _ => Edit.steps_pure _
  · exact Edit.steps_pure _

theorem restore_steps (b : Backup) : Edit.Steps (Frame b.paths) b.restore := by
  refine (restoreFile_steps (by simp [paths]) (by simp [paths])).bind fun _ => ?_
  exact (restoreFile_steps (by simp [paths]) (by simp [paths])).bind fun _ => Edit.steps_pure _

theorem restoreFile_ok (h : Kept s.value.disk file copy c) (hplace : ∃ l, s.value.disk.place? file = some l)
    (hapart : s.value.disk.Apart copy file) : ∃ found s', restoreFile file copy s = .ok found s' ∧
      s'.value.disk.content? file = some c ∧ s'.value.disk.content? copy = none := by
  obtain ⟨l, hplace⟩ := hplace
  rcases h with hcopy | ⟨hcopy, hfile⟩
  · obtain ⟨d₁, hd₁⟩ := Disk.exists_copy hcopy hplace
    have hwithin := Disk.within_copy hd₁
    obtain ⟨c', hc', hfile⟩ := Disk.content?_copy hd₁ hapart
    rw [hcopy] at hc'
    cases hc'
    have hcopy₁ : d₁.content? copy = some c := by
      rw [hwithin.content?_eq (List.forall_mem_singleton.mpr hapart.symm)]
      exact hcopy
    obtain ⟨d₂, hd₂⟩ := Disk.exists_remove hcopy₁
    refine ⟨true, { s with value := { s.value with disk := d₂ } }, ?_, ?_, Disk.content?_remove hd₂⟩
    · refine edit_bind_ok.mpr ⟨true, s, ?_, ?_⟩
      · exact congrArg (EStateM.Result.ok · s) (Disk.isFile_iff.mpr ⟨c, hcopy⟩)
      · refine edit_bind_ok.mpr ⟨(), { s with value := { s.value with disk := d₁ } }, ?_, ?_⟩
        · exact Session.change_ok.mpr ⟨d₁, hd₁, rfl⟩
        · exact edit_bind_ok.mpr ⟨(), _, Session.change_ok.mpr ⟨d₂, hd₂, rfl⟩, rfl⟩
    · rw [← hfile]
      exact (Disk.within_remove hd₂).content?_eq (List.forall_mem_singleton.mpr (hwithin.apart hapart))
  · refine ⟨false, s, edit_bind_ok.mpr ⟨false, s, ?_, rfl⟩, hfile, hcopy⟩
    exact congrArg (EStateM.Result.ok · s) (Disk.isFile_eq_false.mpr hcopy)

theorem pairwise_paths {R : Path → Path → Prop} : b.paths.Pairwise R ↔ (R b.file b.copy ∧ R b.file b.symbols ∧
    R b.file b.symbolsCopy) ∧ (R b.copy b.symbols ∧ R b.copy b.symbolsCopy) ∧ R b.symbols b.symbolsCopy := by
  simp [paths]

/-- Restoring a safe backup gives the pristine files. -/
theorem restore_ok (h : b.Safe image symbols s.value.disk) :
    ∃ found s', b.restore s = .ok found s' ∧ b.Restored image symbols s'.value.disk := by
  obtain ⟨⟨hfileCopy, hfileSymbols, hfileSymbolsCopy⟩, ⟨hcopySymbols, hcopies⟩, hsymbolsCopy⟩ :=
    pairwise_paths.mp h.apart
  -- The files of the module come first; this leaves those of the symbols alone.
  obtain ⟨found, s₁, hs₁, hfile₁, hcopy₁⟩ := restoreFile_ok h.keepsFile h.filePlace hfileCopy.symm
  have hwithin₁ : s.value.disk.Within [b.file, b.copy] s₁.value.disk :=
    ((restoreFile_steps (by simp) (by simp)).ok hs₁).changes
  have hsymbols₁ : Kept s₁.value.disk b.symbols b.symbolsCopy symbols :=
    h.keepsSymbols.within hwithin₁ (by simp [hfileSymbols, hcopySymbols]) (by simp [hfileSymbolsCopy, hcopies])
  have hplace₁ : ∃ l, s₁.value.disk.place? b.symbols = some l := by
    rw [hwithin₁.place?_eq]
    exact h.symbolsPlace
  obtain ⟨found', s₂, hs₂, hfile₂, hcopy₂⟩ :=
    restoreFile_ok hsymbols₁ hplace₁ (hwithin₁.apart hsymbolsCopy).symm
  have hwithin₂ : s₁.value.disk.Within [b.symbols, b.symbolsCopy] s₂.value.disk :=
    ((restoreFile_steps (by simp) (by simp)).ok hs₂).changes
  have hrestore : b.restore s = .ok (found || found') s₂ :=
    edit_bind_ok.mpr ⟨found, s₁, hs₁, edit_bind_ok.mpr ⟨found', s₂, hs₂, rfl⟩⟩
  have hwithin : s.value.disk.Within b.paths s₂.value.disk := ((restore_steps b).ok hrestore).changes
  refine ⟨found || found', s₂, hrestore, ?_⟩
  have hfile : s₂.value.disk.content? b.file = some image := by
    rw [hwithin₂.content?_eq (by simp [(hwithin₁.apart hfileSymbols).symm, (hwithin₁.apart hfileSymbolsCopy).symm])]
    exact hfile₁
  have hcopy : s₂.value.disk.content? b.copy = none := by
    rw [hwithin₂.content?_eq (by simp [(hwithin₁.apart hcopySymbols).symm, (hwithin₁.apart hcopies).symm])]
    exact hcopy₁
  exact {
    apart := pairwise_within h.apart hwithin
    filePlace := by
      rw [hwithin.place?_eq]
      exact h.filePlace
    symbolsPlace := by
      rw [hwithin.place?_eq]
      exact h.symbolsPlace
    keepsFile := .inr ⟨hcopy, hfile⟩
    keepsSymbols := .inr ⟨hcopy₂, hfile₂⟩
    fileContent := hfile
    symbolsContent := hfile₂
    noCopy := hcopy
    noSymbolsCopy := hcopy₂ }

/-- A file without a copy is left alone; otherwise the copy is put in its place and removed. -/
theorem restoreFile_cases {found : Bool} (h : restoreFile file copy s = .ok found s') :
    s.value.disk.content? copy = none ∧ s' = s ∨ ∃ d₁ d₂, s.value.disk.copy copy file = .ok d₁ ∧
      d₁.remove copy = .ok d₂ ∧ s' = { s with value := { s.value with disk := d₂ } } := by
  obtain ⟨isFile, s₁, hisFile, h₁⟩ := edit_bind_ok.mp h
  cases hisFile
  cases hcopy : s.value.disk.isFile copy with
  | false =>
    rw [hcopy, if_neg Bool.false_ne_true] at h₁
    cases h₁
    exact .inl ⟨Disk.isFile_eq_false.mp hcopy, rfl⟩
  | true =>
    rw [hcopy, if_pos rfl] at h₁
    obtain ⟨_, s₂, hcopied, h₂⟩ := edit_bind_ok.mp h₁
    obtain ⟨d₁, hd₁, rfl⟩ := Session.change_ok.mp hcopied
    obtain ⟨_, s₃, hremoved, h₃⟩ := edit_bind_ok.mp h₂
    obtain ⟨d₂, hd₂, rfl⟩ := Session.change_ok.mp hremoved
    cases h₃
    exact .inr ⟨d₁, d₂, hd₁, hd₂, rfl⟩

/-- Restoring a file keeps its content, or puts that of the copy in its place. -/
theorem restoreFile_content? {found : Bool} (h : restoreFile file copy s = .ok found s')
    (hapart : s.value.disk.Apart copy file) : s'.value.disk.content? file = s.value.disk.content? copy ∨
    s.value.disk.content? copy = none ∧ s'.value.disk.content? file = s.value.disk.content? file := by
  rcases restoreFile_cases h with ⟨hcopy, rfl⟩ | ⟨d₁, d₂, hd₁, hd₂, rfl⟩
  · exact .inr ⟨hcopy, rfl⟩
  · obtain ⟨c, hc, hfile⟩ := Disk.content?_copy hd₁ hapart
    have hkept : d₂.content? file = d₁.content? file := (Disk.within_remove hd₂).content?_eq
      (List.forall_mem_singleton.mpr ((Disk.within_copy hd₁).apart hapart))
    exact .inl (hkept.trans (hfile.trans hc.symm))

/-- A file has no copy once it was restored. -/
theorem restoreFile_noCopy {found : Bool} (h : restoreFile file copy s = .ok found s') :
    s'.value.disk.content? copy = none := by
  rcases restoreFile_cases h with ⟨hcopy, rfl⟩ | ⟨d₁, d₂, -, hd₂, rfl⟩
  · exact hcopy
  · exact Disk.content?_remove hd₂

section Restore

variable {found : Bool} (h : b.restore s = .ok found s') (hapart : b.paths.Pairwise s.value.disk.Apart)
include h hapart

/-- The file is restored first, and is left alone after that. -/
theorem exists_restoreFile : ∃ t module symbols, restoreFile b.file b.copy s = .ok module t ∧
    restoreFile b.symbols b.symbolsCopy t = .ok symbols s' ∧ s.value.disk.Within [b.file, b.copy] t.value.disk ∧
    s'.value.disk.content? b.file = t.value.disk.content? b.file := by
  obtain ⟨⟨-, hfileSymbols, hfileSymbolsCopy⟩, -, -⟩ := pairwise_paths.mp hapart
  obtain ⟨module, t, hmodule, h₁⟩ := edit_bind_ok.mp h
  obtain ⟨symbols, s₂, hsymbols, h₂⟩ := edit_bind_ok.mp h₁
  cases h₂
  have hwithin₁ : s.value.disk.Within [b.file, b.copy] t.value.disk :=
    ((restoreFile_steps (by simp) (by simp)).ok hmodule).changes
  have hwithin₂ : t.value.disk.Within [b.symbols, b.symbolsCopy] s'.value.disk :=
    ((restoreFile_steps (by simp) (by simp)).ok hsymbols).changes
  refine ⟨t, module, symbols, hmodule, hsymbols, hwithin₁, hwithin₂.content?_eq ?_⟩
  simp [(hwithin₁.apart hfileSymbols).symm, (hwithin₁.apart hfileSymbolsCopy).symm]

end Restore

/-! ## Copying -/

theorem create_steps (b : Backup) : Edit.Steps (Frame b.paths) b.create :=
  (Session.copy_steps (by simp [paths])).bind fun _ => Session.copy_steps (by simp [paths])

/-- The files stay pristine when other files are changed, such as their copies. -/
theorem Intact.of_kept (h : b.Intact image symbols d) (hd : d.Within ps d') (hfile : ∀ p ∈ ps, d.Apart p b.file)
    (hsymbols : ∀ p ∈ ps, d.Apart p b.symbols) (hkept : Kept d' b.file b.copy image)
    (hkept' : Kept d' b.symbols b.symbolsCopy symbols) : b.Intact image symbols d' where
  apart := pairwise_within h.apart hd
  filePlace := by
    rw [hd.place?_eq]
    exact h.filePlace
  symbolsPlace := by
    rw [hd.place?_eq]
    exact h.symbolsPlace
  keepsFile := hkept
  keepsSymbols := hkept'
  fileContent := by
    rw [hd.content?_eq hfile]
    exact h.fileContent
  symbolsContent := by
    rw [hd.content?_eq hsymbols]
    exact h.symbolsContent

/-- However the copying ends, the files stay pristine and the backup safe. -/
theorem create_meets (h : b.Restored image symbols s.value.disk) :
    Edit.Meets (fun _ t => b.Copied image symbols t.value.disk) (fun t => b.Intact image symbols t.value.disk)
      (b.create s) := by
  have hfirst : Edit.Meets (fun _ t => b.Intact image symbols t.value.disk ∧
      t.value.disk.content? b.copy = some image) (fun t => b.Intact image symbols t.value.disk)
      (Session.copy b.file b.copy s) := by
    refine Session.change_meets h.toIntact fun d hd => ?_
    obtain ⟨⟨hfileCopy, -, -⟩, ⟨hcopySymbols, hcopies⟩, -⟩ := pairwise_paths.mp h.apart
    have hwithin := Disk.within_copy hd
    obtain ⟨c, hc, hcopy⟩ := Disk.content?_copy hd hfileCopy
    rw [h.fileContent] at hc
    cases hc
    refine ⟨h.toIntact.of_kept hwithin ?_ ?_ (.inl hcopy) (h.keepsSymbols.within hwithin ?_ ?_), hcopy⟩
    · exact List.forall_mem_singleton.mpr hfileCopy.symm
    · exact List.forall_mem_singleton.mpr hcopySymbols
    · exact List.forall_mem_singleton.mpr hcopySymbols
    · exact List.forall_mem_singleton.mpr hcopies
  refine hfirst.bind fun _ t ⟨ht, hcopy⟩ => ?_
  refine Session.change_meets ht fun d hd => ?_
  obtain ⟨⟨-, -, hfileSymbolsCopy⟩, ⟨-, hcopies⟩, hsymbolsCopy⟩ := pairwise_paths.mp ht.apart
  have hwithin := Disk.within_copy hd
  obtain ⟨c, hc, hsymbolsContent⟩ := Disk.content?_copy hd hsymbolsCopy
  rw [ht.symbolsContent] at hc
  cases hc
  have hkept : d.content? b.copy = some image := by
    rw [hwithin.content?_eq (List.forall_mem_singleton.mpr hcopies.symm)]
    exact hcopy
  refine ⟨ht.of_kept hwithin ?_ ?_ (.inl hkept) (.inl hsymbolsContent), hkept, hsymbolsContent⟩
  · exact List.forall_mem_singleton.mpr hfileSymbolsCopy.symm
  · exact List.forall_mem_singleton.mpr hsymbolsCopy.symm

end Backup

end CilProbes
