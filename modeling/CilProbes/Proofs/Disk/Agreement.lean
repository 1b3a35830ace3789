import CilProbes.Proofs.Disk.Effects

/-!
# Disks that agree

Two disks that have the same folders and the same files at some paths (`Disk.AgreeOn`) are told apart by no operation on
these paths: what succeeds on one succeeds on the other, and changes both in the same way (`Disk.ChangedAlike`), so they
still agree.

Two paths that lead to one place lead to one place again when the same text is put behind both (`Disk.place?_append`).
-/

namespace CilProbes

namespace Disk

variable {d d' d'' e e' e'' : Disk} {p q : Path} {ps qs : List Path} {l : Location} {c : List UInt8}

/-! ## Text put behind paths -/

/-- A walk to a place goes to a folder first, and the last part is a name in it. -/
theorem exists_folder_of_walk {here : Location} {parts : List (List Char)}
    (h : (d.walk here parts).location? = some l) : ∃ around name folder, parts = around ++ [name] ∧
      ¬Path.isVoid name = true ∧ l = folder ++ [name] ∧
      ∀ more, d.walk here (around ++ more) = d.walk folder more := by
  induction parts generalizing here with
  | nil => cases h
  | cons part parts ih =>
    by_cases hvoid : Path.isVoid part = true
    · rw [walk_void hvoid] at h
      obtain ⟨around, name, folder, rfl, hname, rfl, hwalk⟩ := ih h
      exact ⟨part :: around, name, folder, rfl, hname, rfl, fun more => (walk_void hvoid).trans (hwalk more)⟩
    · by_cases hup : part = ['.', '.']
      · rw [walk_up hup] at h
        obtain ⟨around, name, folder, rfl, hname, rfl, hwalk⟩ := ih h
        exact ⟨part :: around, name, folder, rfl, hname, rfl, fun more => (walk_up hup).trans (hwalk more)⟩
      · by_cases hhere : d.get? here = some .folder
        · rw [location?_walk hvoid hup hhere] at h
          split at h
          · next hfolder =>
            obtain ⟨around, name, folder, rfl, hname, rfl, hwalk⟩ := ih h
            refine ⟨part :: around, name, folder, rfl, hname, rfl, fun more => Eq.trans ?_ (hwalk more)⟩
            rw [List.cons_append, walk_name hvoid hup hhere, hfolder]
          · split at h
            · next hlast =>
              cases h
              rw [List.isEmpty_iff.mp hlast]
              exact ⟨[], part, here, rfl, hvoid, rfl, fun _ => rfl⟩
            · cases h
        · rw [walk_outside hvoid hup hhere] at h
          cases h

/-- The parts with more parts behind them, the first of which continues the last one. -/
def continued (name : List Char) : List (List Char) → List (List Char)
  | [] => [name]
  | first :: rest => (name ++ first) :: rest

theorem split_append {cs : List Char} {around : List (List Char)} {name : List Char}
    (h : Path.split cs = around ++ [name]) (more : List Char) :
    Path.split (cs ++ more) = around ++ continued name (Path.split more) := by
  induction cs generalizing around name with
  | nil =>
    obtain ⟨rfl, rfl⟩ : around = [] ∧ name = [] := by
      cases around with
      | nil => exact ⟨rfl, (List.cons.inj h).1.symm⟩
      | cons part around => simp [Path.split] at h
    cases hsplit : Path.split more with
    | nil => exact absurd hsplit (split_ne_nil more)
    | cons first rest => exact hsplit
  | cons c cs ih =>
    rw [Path.split] at h
    rw [List.cons_append, Path.split]
    by_cases hslash : c = '/'
    · rw [if_pos hslash] at h ⊢
      cases around with
      | nil => exact absurd (List.cons.inj h).2 (split_ne_nil cs)
      | cons part around =>
        obtain ⟨rfl, hrest⟩ := List.cons.inj h
        rw [ih hrest]
        rfl
    · rw [if_neg hslash] at h ⊢
      cases hsplit : Path.split cs with
      | nil => exact absurd hsplit (split_ne_nil cs)
      | cons part parts =>
        rw [hsplit] at h
        cases around with
        | nil =>
          obtain ⟨rfl, rfl⟩ := List.cons.inj h
          rw [ih (show Path.split cs = [] ++ [part] from hsplit)]
          cases Path.split more <;> rfl
        | cons first around =>
          obtain ⟨rfl, rfl⟩ := List.cons.inj h
          rw [ih (show Path.split cs = (part :: around) ++ [name] from hsplit)]
          rfl

theorem parts_append {around : List (List Char)} {name : List Char} (hbody : p.parts.body = around ++ [name])
    (hname : ¬Path.isVoid name = true) (suffix : String) :
    (p.append suffix).parts = ⟨p.parts.anchor, around ++ continued name (Path.split suffix.toList)⟩ := by
  obtain ⟨hne, hdot⟩ : name ≠ [] ∧ name ≠ ['.'] := by simpa [Path.isVoid] using hname
  have htext : (p.append suffix).text.toList = p.text.toList ++ suffix.toList := String.toList_append
  cases hsplit : Path.split p.text.toList with
  | nil => exact absurd hsplit (split_ne_nil _)
  | cons first rest =>
    unfold Path.parts at hbody ⊢
    rw [hsplit] at hbody
    rw [htext, hsplit]
    dsimp only at hbody ⊢
    split at hbody
    · next hroot =>
      obtain ⟨rfl, hrest⟩ := hroot
      dsimp only at hbody
      subst hbody
      rw [split_append (show Path.split p.text.toList = ([] :: around) ++ [name] from hsplit),
        if_pos ⟨rfl, List.append_ne_nil_of_right_ne_nil _ (List.cons_ne_nil _ _)⟩]
      cases Path.split suffix.toList <;> simp [continued]
    · next hroot =>
      split at hbody
      · next hhere =>
        subst hhere
        dsimp only at hbody
        subst hbody
        rw [split_append (show Path.split p.text.toList = (['.'] :: around) ++ [name] from hsplit), if_pos rfl]
        rfl
      · next hhere =>
        dsimp only at hbody
        rw [hbody] at hsplit
        rw [split_append hsplit, if_neg hroot, if_neg hhere]
        cases around with
        | nil =>
          cases Path.split suffix.toList with
          | nil => simp [continued, hne, hdot]
          | cons part parts =>
            have hname' : name ++ part ≠ ['.'] := fun heq => by
              rcases List.append_eq_singleton_iff.mp heq with ⟨h, -⟩ | ⟨h, -⟩
              · exact hne h
              · exact hdot h
            simp [continued, hne, hname']
        | cons part around =>
          obtain ⟨rfl, rfl⟩ := List.cons.inj hbody
          have hfirst : first ≠ [] := fun h => hroot ⟨h, by simp⟩
          simp [hfirst, hhere]

theorem place?_append_eq (h : d.place? p = some l) (suffix : String) : d.place? (p.append suffix) =
    if suffix.toList.contains '\x00' then none
    else (d.walk l.dropLast (continued (l.getLastD []) (Path.split suffix.toList))).location? := by
  have htext : (p.append suffix).text.toList = p.text.toList ++ suffix.toList := String.toList_append
  unfold place? locate at h ⊢
  split at h
  · cases h
  · next hvalid =>
    split at h
    · cases h
    · next hempty =>
      obtain ⟨around, name, folder, hbody, hname, rfl, hwalk⟩ := exists_folder_of_walk h
      have hsome : (p.append suffix).text.isEmpty = false := by
        unfold Path.append
        simpa using fun hnil => absurd hnil (by simpa using hempty)
      rw [parts_append hbody hname, hwalk, htext, hsome, if_neg Bool.false_ne_true, List.dropLast_concat,
        List.getLastD_concat]
      have hcontains : (p.text.toList ++ suffix.toList).contains '\x00' = suffix.toList.contains '\x00' := by
        simpa using fun h => absurd h (by simpa using hvalid)
      rw [hcontains]
      split <;> rfl

/-- Paths of one place lead to one place when the same text is put behind them. -/
theorem place?_append (hp : d.place? p = some l) (hq : d.place? q = some l) (suffix : String) :
    d.place? (p.append suffix) = d.place? (q.append suffix) := by
  rw [place?_append_eq hp, place?_append_eq hq]

/-! ## Agreement -/

/-- The disks have the same working folder and the same entries. -/
structure Same (d e : Disk) : Prop where
  working : e.working = d.working
  entries : ∀ l, e.get? l = d.get? l

namespace Same

theorem refl (d : Disk) : d.Same d where
  working := rfl
  entries _ := rfl

theorem sameFolders (h : d.Same e) : d.SameFolders e where
  working := h.working
  folders l := by rw [h.entries]

theorem content?_eq (h : d.Same e) (p : Path) : e.content? p = d.content? p := by
  unfold content?
  rw [h.sameFolders.place?_eq]
  refine Option.bind_congr fun l _ => ?_
  unfold file?
  rw [h.entries]

end Same

/-- The disks have the same folders, and the same files at the given paths. -/
structure AgreeOn (ps : List Path) (d e : Disk) : Prop where
  folders : d.SameFolders e
  contents : ∀ p ∈ ps, e.content? p = d.content? p

/-- Two disks that were changed have the same entry wherever either of them was changed, and no folder was changed. -/
structure ChangedAlike (d e d' e' : Disk) : Prop where
  folders : d.SameFolders d'
  working : e'.working = e.working
  entries : ∀ l, e'.get? l = d'.get? l ∨ d'.get? l = d.get? l ∧ e'.get? l = e.get? l

namespace ChangedAlike

theorem refl (d e : Disk) : ChangedAlike d e d e where
  folders := .refl d
  working := rfl
  entries _ := .inr ⟨rfl, rfl⟩

theorem trans (h : ChangedAlike d e d' e') (h' : ChangedAlike d' e' d'' e'') : ChangedAlike d e d'' e'' where
  folders := h.folders.trans h'.folders
  working := h'.working.trans h.working
  entries l := by
    rcases h'.entries l with hsame | ⟨hd', he'⟩
    · exact .inl hsame
    · rw [hd', he']
      exact h.entries l

theorem put (hp : d.place? p = some l) (c : List UInt8) :
    ChangedAlike d e (d.put l (.file c)) (e.put l (.file c)) where
  folders := (within_put hp c).folders
  working := rfl
  entries k := by
    by_cases hk : k = l
    · subst hk
      rw [get?_put, get?_put]
      exact .inl rfl
    · rw [get?_put_of_ne _ _ hk, get?_put_of_ne _ _ hk]
      exact .inr ⟨rfl, rfl⟩

theorem delete (hp : d.place? p = some l) : ChangedAlike d e (d.delete l) (e.delete l) where
  folders := (within_delete hp).folders
  working := rfl
  entries k := by
    by_cases hk : k = l
    · subst hk
      rw [get?_delete, get?_delete]
      exact .inl rfl
    · rw [get?_delete_of_ne _ hk, get?_delete_of_ne _ hk]
      exact .inr ⟨rfl, rfl⟩

end ChangedAlike

namespace AgreeOn

theorem mono (h : AgreeOn ps d e) (hsub : qs ⊆ ps) : AgreeOn qs d e where
  folders := h.folders
  contents p hp := h.contents p (hsub hp)

theorem place?_eq (h : AgreeOn ps d e) (p : Path) : e.place? p = d.place? p :=
  h.folders.place?_eq p

theorem file?_eq (h : AgreeOn ps d e) (hp : p ∈ ps) (hl : d.place? p = some l) : e.file? l = d.file? l := by
  have hcontent := h.contents p hp
  unfold content? at hcontent
  rwa [h.place?_eq, hl] at hcontent

/-- Disks that agree still do after they were changed alike. -/
theorem changed (h : AgreeOn ps d e) (hchanged : ChangedAlike d e d' e') : AgreeOn ps d' e' := by
  have hfolders : d'.SameFolders e' := by
    refine ⟨hchanged.working.trans (h.folders.working.trans hchanged.folders.working.symm), fun l => ?_⟩
    rcases hchanged.entries l with hsame | ⟨hd, he⟩
    · rw [hsame]
    · rw [hd, he]
      exact h.folders.folders l
  refine ⟨hfolders, fun p hp => ?_⟩
  unfold content?
  rw [hfolders.place?_eq]
  refine Option.bind_congr fun l hl => ?_
  rcases hchanged.entries l with hsame | ⟨hd, he⟩
  · unfold file?
    rw [hsame]
  · rw [hchanged.folders.place?_eq] at hl
    have hfile := h.file?_eq hp hl
    unfold file? at hfile ⊢
    rwa [hd, he]

theorem isFile_eq (h : AgreeOn ps d e) (hp : p ∈ ps) : e.isFile p = d.isFile p := by
  rw [Bool.eq_iff_iff, isFile_iff, isFile_iff, h.contents p hp]

theorem read_ok (h : AgreeOn ps d e) (hp : p ∈ ps) (hread : d.read p = .ok c) : e.read p = .ok c := by
  rw [Disk.read_ok, h.contents p hp]
  exact Disk.read_ok.mp hread

theorem exists_write (h : AgreeOn ps d e) (hwrite : d.write p c = .ok d') :
    ∃ e', e.write p c = .ok e' ∧ ChangedAlike d e d' e' := by
  obtain ⟨l, hl, rfl⟩ := write_ok.mp hwrite
  exact ⟨e.put l (.file c), write_ok.mpr ⟨l, (h.place?_eq p).trans hl, rfl⟩, ChangedAlike.put hl c⟩

theorem locate_file (h : AgreeOn ps d e) (hp : p ∈ ps) (hfile : d.locate p = .file l c) : e.locate p = .file l c := by
  have hcontent : e.content? p = some c := (h.contents p hp).trans (content?_eq_some.mpr ⟨l, hfile⟩)
  obtain ⟨l', hfile'⟩ := content?_eq_some.mp hcontent
  have hplace := (h.place?_eq p).trans (Disk.locate_file hfile).1
  rw [(Disk.locate_file hfile').1] at hplace
  cases hplace
  exact hfile'

theorem exists_copy (h : AgreeOn ps d e) (hp : p ∈ ps) (hcopy : d.copy p q = .ok d') :
    ∃ e', e.copy p q = .ok e' ∧ ChangedAlike d e d' e' := by
  obtain ⟨l, c, k, hfile, hk, rfl⟩ := copy_ok.mp hcopy
  exact ⟨_, copy_ok.mpr ⟨l, c, k, h.locate_file hp hfile, (h.place?_eq q).trans hk, rfl⟩, ChangedAlike.put hk _⟩

theorem exists_remove (h : AgreeOn ps d e) (hp : p ∈ ps) (hremove : d.remove p = .ok d') :
    ∃ e', e.remove p = .ok e' ∧ ChangedAlike d e d' e' := by
  obtain ⟨l, c, hfile, rfl⟩ := remove_ok.mp hremove
  exact ⟨_, remove_ok.mpr ⟨l, c, h.locate_file hp hfile, rfl⟩, ChangedAlike.delete (Disk.locate_file hfile).1⟩

end AgreeOn

theorem get?_eq_map_file? (h : d.get? l ≠ some .folder) : d.get? l = (d.file? l).map .file := by
  unfold file?
  cases hget : d.get? l with
  | none => rfl
  | some entry =>
    cases entry with
    | file content => rfl
    | folder => exact absurd hget h

/-- Changes of the files at some paths are alike if they lead to the same files there. -/
theorem Within.changedAlike (hd : d.Within ps d') (he : e.Within ps e') (h : AgreeOn ps d' e') :
    ChangedAlike d e d' e' where
  folders := hd.folders
  working := he.folders.working
  entries l := by
    by_cases hl : ∃ p ∈ ps, d'.place? p = some l
    · obtain ⟨p, hp, hplace⟩ := hl
      left
      rw [get?_eq_map_file? (get?_ne_folder ((h.place?_eq p).trans hplace)), h.file?_eq hp hplace,
        get?_eq_map_file? (get?_ne_folder hplace)]
    · have hnone : ∀ p ∈ ps, d'.place? p ≠ some l := fun p hp hplace => hl ⟨p, hp, hplace⟩
      refine .inr ⟨hd.others l fun p hp => ?_, he.others l fun p hp => ?_⟩
      · rw [← hd.place?_eq]
        exact hnone p hp
      · rw [← he.place?_eq, h.place?_eq]
        exact hnone p hp

end Disk

end CilProbes
