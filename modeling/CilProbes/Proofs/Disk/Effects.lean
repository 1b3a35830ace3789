import CilProbes.Proofs.Disk.Places
import CilProbes.Proofs.Outcome

/-!
# Effects on the disk

Writing, copying and removing files changes the files at the places of some paths and no folder (`Disk.Within`), so what
paths lead to stays the same, and files of paths that lead elsewhere stay as they are (`Within.content?_eq`).
-/

namespace CilProbes

namespace Disk

variable {d d' d'' : Disk} {p q : Path} {ps qs : List Path} {l : Location} {c : List UInt8}

/-- The disks have the same folders, and differ in files that the given paths lead to only. -/
structure Within (d : Disk) (ps : List Path) (d' : Disk) : Prop where
  folders : d.SameFolders d'
  others : ∀ l, (∀ p ∈ ps, d.place? p ≠ some l) → d'.get? l = d.get? l

namespace Within

theorem refl (d : Disk) (ps : List Path) : d.Within ps d where
  folders := .refl d
  others _ _ := rfl

theorem place?_eq (h : d.Within ps d') (p : Path) : d'.place? p = d.place? p :=
  h.folders.place?_eq p

theorem trans (h : d.Within ps d') (h' : d'.Within ps d'') : d.Within ps d'' where
  folders := h.folders.trans h'.folders
  others l hl := by
    refine (h'.others l fun p hp => ?_).trans (h.others l hl)
    rw [h.place?_eq]
    exact hl p hp

theorem mono (h : d.Within ps d') (hsub : ps ⊆ qs) : d.Within qs d' where
  folders := h.folders
  others l hl := h.others l fun p hp => hl p (hsub hp)

theorem apart (h : d.Within ps d') (hapart : d.Apart p q) : d'.Apart p q := by
  unfold Apart
  rw [h.place?_eq, h.place?_eq]
  exact hapart

/-- The file of a path that leads elsewhere stays as it is. -/
theorem content?_eq (h : d.Within ps d') (hapart : ∀ p ∈ ps, d.Apart p q) : d'.content? q = d.content? q := by
  unfold content?
  rw [h.place?_eq]
  refine Option.bind_congr fun l hl => ?_
  unfold file?
  rw [h.others l fun p hp hpl => hapart p hp l hpl hl]

end Within

/-- A change at the place of a path that makes no folder there. -/
theorem within_of_place (h : d.place? p = some l) (hworking : d'.working = d.working)
    (hplace : d'.get? l ≠ some .folder) (hothers : ∀ k, k ≠ l → d'.get? k = d.get? k) : d.Within [p] d' where
  folders := by
    refine ⟨hworking, fun k => ?_⟩
    by_cases hk : k = l
    · subst hk
      exact ⟨fun hfolder => absurd hfolder hplace, fun hfolder => absurd hfolder (get?_ne_folder h)⟩
    · rw [hothers k hk]
  others k hk := by
    refine hothers k fun heq => ?_
    subst heq
    exact hk p List.mem_cons_self h

theorem within_put (h : d.place? p = some l) (c : List UInt8) : d.Within [p] (d.put l (.file c)) := by
  refine within_of_place h rfl ?_ fun k hk => get?_put_of_ne _ _ hk
  rw [get?_put]
  nofun

theorem content?_put (h : d.place? p = some l) : (d.put l (.file c)).content? p = some c := by
  unfold content?
  rw [(within_put h c).place?_eq, h, Option.bind_some, file?_eq_some]
  exact get?_put ..

/-! ## Writing -/

theorem write_ok : d.write p c = .ok d' ↔ ∃ l, d.place? p = some l ∧ d' = d.put l (.file c) := by
  unfold write
  simp only [bind_ok, target_ok]
  exact exists_congr fun l => and_congr_right fun _ => ⟨fun h => (Except.ok.inj h).symm, fun h => h ▸ rfl⟩

theorem within_write (h : d.write p c = .ok d') : d.Within [p] d' := by
  obtain ⟨l, hl, rfl⟩ := write_ok.mp h
  exact within_put hl c

theorem content?_write (h : d.write p c = .ok d') : d'.content? p = some c := by
  obtain ⟨l, hl, rfl⟩ := write_ok.mp h
  exact content?_put hl

theorem exists_write (h : d.place? p = some l) (c : List UInt8) : ∃ d', d.write p c = .ok d' :=
  ⟨_, write_ok.mpr ⟨l, h, rfl⟩⟩

/-! ## Copying -/

theorem copy_ok : d.copy p q = .ok d' ↔ ∃ l c k, d.locate p = .file l c ∧ d.place? q = some k ∧
    d' = d.put k (.file (if k = l then [] else c)) := by
  unfold copy
  cases d.locate p with
  | file l c =>
    simp only [bind_ok, target_ok]
    constructor
    · rintro ⟨k, hk, h⟩
      exact ⟨l, c, k, rfl, hk, (Except.ok.inj h).symm⟩
    · rintro ⟨_, _, k, hfile, hk, rfl⟩
      cases hfile
      exact ⟨k, hk, rfl⟩
  | folder | vacant | missing | blocked | invalid => simp

theorem within_copy (h : d.copy p q = .ok d') : d.Within [q] d' := by
  obtain ⟨l, c, k, _, hk, rfl⟩ := copy_ok.mp h
  exact within_put hk _

/-- The copy has the content of its source, if it lies elsewhere. -/
theorem content?_copy (h : d.copy p q = .ok d') (hapart : d.Apart p q) :
    ∃ c, d.content? p = some c ∧ d'.content? q = some c := by
  obtain ⟨l, c, k, hfile, hk, rfl⟩ := copy_ok.mp h
  have hne : k ≠ l := fun heq => hapart l (locate_file hfile).1 (heq ▸ hk)
  rw [if_neg hne]
  exact ⟨c, content?_eq_some.mpr ⟨l, hfile⟩, content?_put hk⟩

theorem exists_copy (hp : d.content? p = some c) (hq : d.place? q = some l) : ∃ d', d.copy p q = .ok d' := by
  obtain ⟨k, hk⟩ := content?_eq_some.mp hp
  exact ⟨_, copy_ok.mpr ⟨k, c, l, hk, hq, rfl⟩⟩

/-! ## Removing -/

theorem remove_ok : d.remove p = .ok d' ↔ ∃ l c, d.locate p = .file l c ∧ d' = d.delete l := by
  unfold remove
  cases d.locate p <;> simp [eq_comm]

theorem within_delete (h : d.place? p = some l) : d.Within [p] (d.delete l) := by
  refine within_of_place h rfl ?_ fun k hk => get?_delete_of_ne _ hk
  rw [get?_delete]
  nofun

theorem within_remove (h : d.remove p = .ok d') : d.Within [p] d' := by
  obtain ⟨l, c, hfile, rfl⟩ := remove_ok.mp h
  exact within_delete (locate_file hfile).1

theorem content?_remove (h : d.remove p = .ok d') : d'.content? p = none := by
  have hwithin := within_remove h
  obtain ⟨l, c, hfile, rfl⟩ := remove_ok.mp h
  unfold content? file?
  rw [hwithin.place?_eq, (locate_file hfile).1, Option.bind_some, get?_delete]

theorem exists_remove (h : d.content? p = some c) : ∃ d', d.remove p = .ok d' := by
  obtain ⟨l, hl⟩ := content?_eq_some.mp h
  exact ⟨_, remove_ok.mpr ⟨l, c, hl, rfl⟩⟩

end Disk

end CilProbes
