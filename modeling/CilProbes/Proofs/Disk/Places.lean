import CilProbes.Disk.Basic

/-!
# Places of files

A path leads to a place, where a file is or would be (`Disk.place?`). Which place that is depends on the folders of the
disk only (`SameFolders.place?_eq`), and the path alone tells which file is read, written, copied or removed
(`read_ok`, `write_ok`, `copy_ok`, `remove_ok`).
-/

namespace CilProbes

/-- Where the file is, or would be. -/
def Spot.location? : Spot → Option Location
  | .file l _ | .vacant l => some l
  | _ => none

namespace Disk

/-- The place that a path leads to. -/
def place? (d : Disk) (p : Path) : Option Location :=
  (d.locate p).location?

/-- The content of the file that a path leads to. -/
def content? (d : Disk) (p : Path) : Option (List UInt8) :=
  (d.place? p).bind d.file?

/-- The two paths lead to different places, if to any. -/
def Apart (d : Disk) (p q : Path) : Prop :=
  ∀ l, d.place? p = some l → d.place? q ≠ some l

/-- The disks have the same folders, and paths start from the same ones. -/
structure SameFolders (d d' : Disk) : Prop where
  working : d'.working = d.working
  folders : ∀ l, d'.get? l = some .folder ↔ d.get? l = some .folder

variable {d d' d'' : Disk} {p q : Path} {l : Location} {c : List UInt8}

namespace SameFolders

theorem refl (d : Disk) : d.SameFolders d where
  working := rfl
  folders _ := Iff.rfl

theorem symm (h : d.SameFolders d') : d'.SameFolders d where
  working := h.working.symm
  folders l := (h.folders l).symm

theorem trans (h : d.SameFolders d') (h' : d'.SameFolders d'') : d.SameFolders d'' where
  working := h'.working.trans h.working
  folders l := (h'.folders l).trans (h.folders l)

end SameFolders

theorem Apart.symm (h : d.Apart p q) : d.Apart q p :=
  fun l hq hp => h l hp hq

theorem file?_eq_some : d.file? l = some c ↔ d.get? l = some (.file c) := by
  unfold file?
  split
  · next h => rw [h]; simp
  · next h => exact ⟨fun hnone => (by cases hnone), fun hfile => absurd hfile (h c)⟩

/-! ## Walks -/

section Walk

variable {here : Location} {part : List Char} {parts : List (List Char)}

theorem walk_void (h : Path.isVoid part = true) : d.walk here (part :: parts) = d.walk here parts := by
  rw [walk, if_pos h]

theorem walk_up (h : part = ['.', '.']) : d.walk here (part :: parts) = d.walk here.dropLast parts := by
  subst h
  rfl

/-- Nothing is found in what is not known to be a folder. -/
theorem walk_outside (hvoid : ¬Path.isVoid part = true) (hup : part ≠ ['.', '.']) (hhere : d.get? here ≠ some .folder) :
    d.walk here (part :: parts) = .missing := by
  rw [walk, if_neg hvoid, if_neg hup, if_neg hhere]

/-- A name in a folder leads to the folder of that name, or to what is there if no part follows. -/
theorem walk_name (hvoid : ¬Path.isVoid part = true) (hup : part ≠ ['.', '.']) (hhere : d.get? here = some .folder) :
    d.walk here (part :: parts) =
      match d.get? (here ++ [part]) with
      | some .folder => d.walk (here ++ [part]) parts
      | some (.file content) => if parts.isEmpty then .file (here ++ [part]) content else .blocked
      | none => if parts.isEmpty then .vacant (here ++ [part]) else .missing := by
  rw [walk, if_neg hvoid, if_neg hup]
  exact if_pos hhere

theorem walk_file (h : d.walk here parts = .file l c) : d.get? l = some (.file c) := by
  fun_induction walk d here parts <;> simp_all

theorem walk_vacant (h : d.walk here parts = .vacant l) : d.get? l = none := by
  fun_induction walk d here parts <;> simp_all

/-- A walk leaves a folder, or ends at a place in it. -/
theorem location?_walk (hvoid : ¬Path.isVoid part = true) (hup : part ≠ ['.', '.']) (hhere : d.get? here = some .folder) :
    (d.walk here (part :: parts)).location? =
      if d.get? (here ++ [part]) = some .folder then (d.walk (here ++ [part]) parts).location?
      else if parts.isEmpty then some (here ++ [part]) else none := by
  rw [walk_name hvoid hup hhere]
  cases d.get? (here ++ [part]) with
  | none => cases parts.isEmpty <;> rfl
  | some e =>
    cases e with
    | folder => exact (if_pos rfl).symm
    | file content => cases parts.isEmpty <;> rfl

theorem SameFolders.location?_walk (h : d.SameFolders d') (here : Location) (parts : List (List Char)) :
    (d'.walk here parts).location? = (d.walk here parts).location? := by
  induction parts generalizing here with
  | nil => rfl
  | cons part parts ih =>
    by_cases hvoid : Path.isVoid part = true
    · rw [walk_void hvoid, walk_void hvoid]
      exact ih here
    · by_cases hup : part = ['.', '.']
      · rw [walk_up hup, walk_up hup]
        exact ih _
      · by_cases hhere : d.get? here = some .folder
        · rw [Disk.location?_walk hvoid hup hhere, Disk.location?_walk hvoid hup ((h.folders here).mpr hhere)]
          simp only [h.folders (here ++ [part]), ih]
        · rw [walk_outside hvoid hup hhere, walk_outside hvoid hup fun hfolder => hhere ((h.folders here).mp hfolder)]

/-- A path that ends in a slash leads to no place. -/
theorem location?_walk_concat (here : Location) (parts : List (List Char)) :
    (d.walk here (parts ++ [[]])).location? = none := by
  induction parts generalizing here with
  | nil => rfl
  | cons part parts ih =>
    rw [List.cons_append]
    by_cases hvoid : Path.isVoid part = true
    · rw [walk_void hvoid]
      exact ih here
    · by_cases hup : part = ['.', '.']
      · rw [walk_up hup]
        exact ih _
      · by_cases hhere : d.get? here = some .folder
        · have hlast : (parts ++ [[]]).isEmpty = false := by simp
          rw [Disk.location?_walk hvoid hup hhere, ih, hlast]
          exact ite_self _
        · rw [walk_outside hvoid hup hhere]
          rfl

/-- Through known folders a walk gets to the last one of them. -/
theorem walk_folders {names : List (List Char)} (hnames : ∀ name ∈ names, ¬Path.isVoid name = true ∧ name ≠ ['.', '.'])
    (hfolders : ∀ outer, outer <+: names → d.get? (here ++ outer) = some .folder) :
    d.walk here (names ++ parts) = d.walk (here ++ names) parts := by
  induction names generalizing here with
  | nil => rw [List.nil_append, List.append_nil]
  | cons name names ih =>
    obtain ⟨hvoid, hup⟩ := hnames name List.mem_cons_self
    have hhere : d.get? here = some .folder := by simpa using hfolders [] List.nil_prefix
    have hinner : d.get? (here ++ [name]) = some .folder := hfolders [name] (List.cons_prefix_cons.mpr ⟨rfl, List.nil_prefix⟩)
    rw [List.cons_append, walk_name hvoid hup hhere, hinner]
    dsimp only
    rw [ih (fun n hn => hnames n (List.mem_cons_of_mem _ hn)) fun outer houter => ?_, List.append_assoc]
    · rfl
    · rw [List.append_assoc]
      exact hfolders (name :: outer) (List.cons_prefix_cons.mpr ⟨rfl, houter⟩)

/-- What a relative path leads to has an absolute path: the one through the working folder. -/
theorem walk_working (hnames : ∀ name ∈ d.working, ¬Path.isVoid name = true ∧ name ≠ ['.', '.'])
    (hfolders : ∀ outer, outer <+: d.working → d.get? outer = some .folder) :
    d.walk (d.start .root) (d.working ++ parts) = d.walk (d.start .bare) parts :=
  walk_folders hnames hfolders

end Walk

theorem SameFolders.start_eq (h : d.SameFolders d') (anchor : Path.Anchor) : d'.start anchor = d.start anchor := by
  cases anchor with
  | root => rfl
  | here | bare => exact h.working

theorem SameFolders.place?_eq (h : d.SameFolders d') (p : Path) : d'.place? p = d.place? p := by
  unfold place? locate
  split
  · rfl
  · split
    · rfl
    · rw [h.start_eq]
      exact h.location?_walk _ _

/-! ## Paths that end in a slash -/

theorem split_ne_nil (cs : List Char) : Path.split cs ≠ [] := by
  induction cs with
  | nil => exact List.cons_ne_nil _ _
  | cons c cs _ =>
    rw [Path.split]
    split
    · exact List.cons_ne_nil _ _
    · split <;> exact List.cons_ne_nil _ _

theorem split_concat_slash (cs : List Char) : Path.split (cs ++ ['/']) = Path.split cs ++ [[]] := by
  induction cs with
  | nil => rfl
  | cons c cs ih =>
    rw [List.cons_append, Path.split, Path.split, ih]
    split
    · rfl
    · cases hsplit : Path.split cs with
      | nil => exact absurd hsplit (split_ne_nil cs)
      | cons part parts => rfl

theorem place?_of_slash {cs : List Char} (h : p.text.toList = cs ++ ['/']) : d.place? p = none := by
  have hbody : ∃ parts, p.parts.body = parts ++ [[]] := by
    unfold Path.parts
    rw [h, split_concat_slash]
    cases hsplit : Path.split cs with
    | nil => exact absurd hsplit (split_ne_nil cs)
    | cons first rest =>
      dsimp only [List.cons_append]
      split
      · exact ⟨rest, rfl⟩
      · split
        · exact ⟨rest, rfl⟩
        · exact ⟨first :: rest, rfl⟩
  obtain ⟨parts, hparts⟩ := hbody
  unfold place? locate
  split
  · rfl
  · split
    · rfl
    · rw [hparts]
      exact location?_walk_concat _ _

theorem withoutSlash_cases (p : Path) :
    withoutSlash p = (p, false) ∨ (withoutSlash p).2 = true ∧ ∃ cs, p.text.toList = cs ++ ['/'] := by
  unfold withoutSlash
  rcases List.eq_nil_or_concat p.text.toList with hnil | ⟨cs, last, hlast⟩
  · rw [hnil]
    exact .inl rfl
  · rw [List.concat_eq_append] at hlast
    by_cases hslash : last = '/'
    · subst hslash
      rw [List.getLast?_eq_some_iff.mpr ⟨cs, hlast⟩]
      dsimp only
      split
      · exact .inl rfl
      · exact .inr ⟨rfl, cs, hlast⟩
    · have hstay : (p.text.toList.reverse.dropWhile (· == '/')).reverse = p.text.toList := by
        rw [hlast, List.reverse_append, List.reverse_singleton, List.singleton_append,
          List.dropWhile_cons_of_neg (by simpa using hslash), List.reverse_cons, List.reverse_reverse]
      have hlast? : (p.text.toList.getLast? == some '/') = false := by
        rw [hlast, List.getLast?_concat]
        simpa using hslash
      rw [hstay, hlast?]
      dsimp only
      rw [String.ofList_toList, ite_self]
      exact .inl rfl

/-- A file is put where the path leads. -/
theorem target_ok : d.target p = .ok l ↔ d.place? p = some l := by
  unfold target
  rcases withoutSlash_cases p with hplain | ⟨hslash, cs, hcs⟩
  · rw [hplain]
    unfold place? Spot.location?
    dsimp only
    cases d.locate p <;> simp
  · rw [place?_of_slash hcs]
    generalize withoutSlash p = bare at hslash
    obtain ⟨bare, slash⟩ := bare
    cases hslash
    dsimp only
    cases d.locate bare <;> simp

/-! ## Contents -/

/-- A path that is valid and not empty leads where the walk over its parts leads. -/
theorem walk_of_locate {spot : Spot} (h : d.locate p = spot) (hvalid : spot ≠ .invalid) (hthere : spot ≠ .missing) :
    d.walk (d.start p.parts.anchor) p.parts.body = spot := by
  unfold locate at h
  split at h
  · exact absurd h.symm hvalid
  · split at h
    · exact absurd h.symm hthere
    · exact h

theorem locate_file (h : d.locate p = .file l c) : d.place? p = some l ∧ d.file? l = some c := by
  unfold place?
  exact ⟨by rw [h]; rfl, file?_eq_some.mpr (walk_file (walk_of_locate h nofun nofun))⟩

theorem locate_vacant (h : d.locate p = .vacant l) : d.place? p = some l ∧ d.get? l = none := by
  unfold place?
  exact ⟨by rw [h]; rfl, walk_vacant (walk_of_locate h nofun nofun)⟩

/-- There is no folder at a place for a file. -/
theorem get?_ne_folder (h : d.place? p = some l) : d.get? l ≠ some .folder := by
  unfold place? Spot.location? at h
  split at h
  · next hfile =>
    cases h
    rw [file?_eq_some.mp (locate_file hfile).2]
    exact fun hfolder => by cases hfolder
  · next hvacant =>
    cases h
    rw [(locate_vacant hvacant).2]
    exact fun hfolder => by cases hfolder
  · cases h

theorem content?_eq_some : d.content? p = some c ↔ ∃ l, d.locate p = .file l c := by
  unfold content?
  rw [Option.bind_eq_some_iff]
  constructor
  · rintro ⟨l, hplace, hfile⟩
    unfold place? Spot.location? at hplace
    split at hplace
    · next hlocate =>
      cases hplace
      rw [(locate_file hlocate).2] at hfile
      cases hfile
      exact ⟨l, hlocate⟩
    · next hlocate =>
      cases hplace
      rw [file?_eq_some, (locate_vacant hlocate).2] at hfile
      cases hfile
    · cases hplace
  · rintro ⟨l, hlocate⟩
    exact ⟨l, locate_file hlocate⟩

theorem read_ok : d.read p = .ok c ↔ d.content? p = some c := by
  rw [content?_eq_some]
  unfold read
  cases d.locate p <;> simp

theorem isFile_iff : d.isFile p = true ↔ ∃ c, d.content? p = some c := by
  simp only [content?_eq_some]
  unfold isFile
  cases d.locate p <;> simp

theorem isFile_eq_false : d.isFile p = false ↔ d.content? p = none := by
  rw [← Bool.not_eq_true, isFile_iff, not_exists, Option.eq_none_iff_forall_ne_some]

/-! ## Paths with the same components -/

/-- On the way to a file void parts do not count. -/
theorem walk_filter {here : Location} {parts : List (List Char)} (h : d.walk here parts = .file l c) :
    d.walk here (parts.filter fun part => !Path.isVoid part) = .file l c := by
  induction parts generalizing here with
  | nil => exact h
  | cons part parts ih =>
    by_cases hvoid : Path.isVoid part = true
    · rw [walk_void hvoid] at h
      rw [List.filter_cons_of_neg (by simpa using hvoid)]
      exact ih h
    · rw [List.filter_cons_of_pos (by simpa using hvoid)]
      by_cases hup : part = ['.', '.']
      · rw [walk_up hup] at h ⊢
        exact ih h
      · by_cases hhere : d.get? here = some .folder
        · rw [walk_name hvoid hup hhere] at h ⊢
          split at h
          · exact ih h
          · split at h
            · next hlast =>
              rw [List.isEmpty_iff.mp hlast]
              exact h
            · cases h
          · split at h <;> cases h
        · rw [walk_outside hvoid hup hhere] at h
          cases h

/-- Files of paths with the same components are the same. -/
theorem content?_eq_of_components {c' : List UInt8} (h : p.components = q.components) (hp : d.content? p = some c)
    (hq : d.content? q = some c') : c' = c := by
  have hwalk {p : Path} {c : List UInt8} (hp : d.content? p = some c) :
      ∃ l, d.walk (d.start p.components.1) p.components.2 = .file l c := by
    obtain ⟨l, hlocate⟩ := content?_eq_some.mp hp
    exact ⟨l, walk_filter (walk_of_locate hlocate nofun nofun)⟩
  obtain ⟨l, hl⟩ := hwalk hp
  obtain ⟨l', hl'⟩ := hwalk hq
  rw [← h, hl] at hl'
  cases hl'
  rfl

end Disk

end CilProbes
