import CilProbes.Proofs.Bytes.Reads
import CilProbes.Proofs.Outcome

/-!
# Readers of one size

`Sized r n` says that `r` reads any `n` bytes, and runs out of bounds where fewer are left. Words are such readers, and so
are sequences and repetitions of them: whether a table of records is read is decided by its size alone.
-/

namespace CilProbes.Reader

variable {α β : Type} {r : Reader α} {f : α → Reader β} {n k : Nat}

/-- The next value is read, then the other ones. -/
theorem timesOnto_succ (r : Reader α) (n : Nat) (done : List α) :
    timesOnto r (n + 1) done = r >>= fun a => timesOnto r n (a :: done) := by
  funext c
  cases hr : r c with
  | ok a c' => rw [edit_bind_of_ok hr]; simp only [timesOnto, hr]
  | error fault c' => rw [edit_bind_of_error hr]; simp only [timesOnto, hr]

/-- Any `n` bytes are read, and fewer are out of bounds. -/
structure Sized (r : Reader α) (n : Nat) : Prop where
  reads : ∀ bytes : List UInt8, bytes.length = n → ∃ a, Reads r bytes a
  short : ∀ c : Cursor, c.remaining < n → ∃ c', r c = .error .outOfBounds c'

/-- Where enough bytes are left, the next ones are read. -/
theorem Sized.read (h : Sized r n) {c : Cursor} (hc : n ≤ c.remaining) :
    ∃ a c', Reads r (c.rest.take n) a ∧ r c = .ok a c' ∧ c'.pos = c.pos + n ∧ c'.rest = c.rest.drop n := by
  have hlen : (c.rest.take n).length = n := by rw [List.length_take, c.length_rest, Nat.min_eq_left hc]
  obtain ⟨a, ha⟩ := h.reads (c.rest.take n) hlen
  obtain ⟨c', hr, hpos, hrest⟩ := ha c.pos c (c.rest.drop n) rfl (List.take_append_drop n c.rest).symm
  exact ⟨a, c', ha, hr, hlen ▸ hpos, hrest⟩

theorem Sized.pure (a : α) : Sized (Pure.pure a) 0 where
  reads bytes h := by
    rw [List.length_eq_zero_iff.mp h]
    exact ⟨a, .pure a⟩
  short c h := absurd h (Nat.not_lt_zero _)

theorem Sized.bind (h : Sized r n) (hf : ∀ a, Sized (f a) k) : Sized (r >>= f) (n + k) where
  reads bytes hlen := by
    obtain ⟨a, ha⟩ := h.reads (bytes.take n) (by rw [List.length_take]; omega)
    obtain ⟨b, hb⟩ := (hf a).reads (bytes.drop n) (by rw [List.length_drop]; omega)
    exact ⟨b, List.take_append_drop n bytes ▸ ha.bind hb⟩
  short c hc := by
    by_cases hn : n ≤ c.remaining
    · obtain ⟨a, c₁, -, ha, -, hrest⟩ := h.read hn
      have hleft : c₁.remaining < k := by
        rw [← c₁.length_rest, hrest, List.length_drop, c.length_rest]
        omega
      obtain ⟨c', hshort⟩ := (hf a).short c₁ hleft
      exact ⟨c', by rw [edit_bind_of_ok ha, hshort]⟩
    · obtain ⟨c', hshort⟩ := h.short c (Nat.not_le.mp hn)
      exact ⟨c', edit_bind_of_error hshort⟩

/-- A reader that computes on what it read. -/
theorem Sized.bind_pure (h : Sized r n) (g : α → β) : Sized (r >>= fun a => Pure.pure (g a)) n :=
  h.bind fun a => .pure (g a)

theorem Sized.timesOnto (h : Sized r k) (n : Nat) (done : List α) : Sized (timesOnto r n done) (n * k) := by
  induction n generalizing done with
  | zero => rw [Nat.zero_mul]; exact .pure done.reverse
  | succ n ih =>
    rw [timesOnto_succ, Nat.succ_mul, Nat.add_comm]
    exact h.bind fun a => ih (a :: done)

theorem Sized.times (h : Sized r k) (n : Nat) : Sized (times n r) (n * k) :=
  h.timesOnto n []

theorem sized_bytes (n : Nat) : Sized (bytes n) n where
  reads piece h := ⟨piece, h ▸ reads_bytes piece⟩
  short c h := ⟨c, dif_neg (Nat.not_le.mpr h)⟩

theorem sized_word (n : Nat) : Sized (word n) n :=
  (sized_bytes n).bind_pure _

theorem sized_uint32 : Sized uint32 4 :=
  (sized_word 4).bind_pure _

theorem sized_int32 : Sized int32 4 :=
  sized_uint32.bind_pure _

end CilProbes.Reader
