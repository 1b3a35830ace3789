import CilProbes.Proofs.Bytes.Reads
import CilProbes.Proofs.Outcome
import Mathlib.Tactic.SplitIfs

/-!
# What readers take

`c.Took bytes c'` says that between two cursors just `bytes` were read. A reader of words that succeeds took the bytes
that are written for its value, so what was read can be written again (`word_took`, `times_took`). A compressed integer
may have been read from more bytes than it is written with, never from fewer (`compressed_covers`).
-/

namespace CilProbes

/-- From `c` to `c'` just `bytes` were read. -/
structure Cursor.Took (c : Cursor) (bytes : List UInt8) (c' : Cursor) : Prop where
  rest : c.rest = bytes ++ c'.rest
  pos : c'.pos = c.pos + bytes.length

theorem Cursor.Took.refl (c : Cursor) : c.Took [] c :=
  ⟨rfl, rfl⟩

theorem Cursor.Took.append {c c₁ c' : Cursor} {front back : List UInt8} (h : c.Took front c₁) (h' : c₁.Took back c') :
    c.Took (front ++ back) c' where
  rest := by rw [h.rest, h'.rest, List.append_assoc]
  pos := by rw [h'.pos, h.pos, List.length_append, Nat.add_assoc]

theorem Cursor.took_advance (c : Cursor) (n : Nat) (h : n ≤ c.remaining) :
    c.Took (c.rest.take n) (c.advance n h) where
  rest := (List.take_append_drop n c.rest).symm
  pos := by rw [List.length_take, c.length_rest, Nat.min_eq_left h]; rfl

/-- What can be written is no longer than what was read from `c` to `c'`. -/
def Cursor.Covers (c c' : Cursor) (written : Except Fault (List UInt8)) : Prop :=
  ∃ out, written = .ok out ∧ out.length + c'.rest.length ≤ c.rest.length

theorem Cursor.Took.length_rest {c c' : Cursor} {bytes : List UInt8} (h : c.Took bytes c') :
    c.rest.length = bytes.length + c'.rest.length := by
  rw [h.rest, List.length_append]

/-- How many bytes a number is written with. -/
def Compressed.size (n : Nat) : Nat :=
  if n ≤ 0x7F then 1 else if n ≤ 0x3FFF then 2 else 4

theorem Compressed.size_le (n : Nat) : Compressed.size n ≤ 4 := by
  unfold Compressed.size
  split_ifs <;> omega

theorem Compressed.encode_of_le {n : Nat} (h : n ≤ Compressed.limit) :
    ∃ out, Compressed.encode n = .ok out ∧ out.length = Compressed.size n := by
  unfold Compressed.encode Compressed.size
  split_ifs <;> exact ⟨_, rfl, rfl⟩

theorem Little.decode_lt (bs : List UInt8) : Little.decode bs < 256 ^ bs.length := by
  rw [← Little.encode_decode bs, Little.decode_encode, Little.length_encode]
  exact Nat.mod_lt _ (Nat.pow_pos (by decide))

namespace Reader

variable {α : Type} {c c' : Cursor}

theorem byte_took {b : UInt8} (h : byte c = .ok b c') : c.Took [b] c' := by
  unfold byte at h
  split at h
  · cases h
  · next b rest hrest =>
    cases h
    have := c.took_advance 1 (by rw [← c.length_rest, hrest]; exact Nat.le_add_left ..)
    rwa [show c.rest.take 1 = [b] from by rw [hrest]; rfl] at this

theorem bytes_took {n : Nat} {out : List UInt8} (h : bytes n c = .ok out c') : out.length = n ∧ c.Took out c' := by
  unfold bytes at h
  split at h
  · next hle =>
    cases h
    exact ⟨by rw [List.length_take, c.length_rest, Nat.min_eq_left hle], c.took_advance n hle⟩
  · cases h

/-- A word is read from the bytes that it is written with. -/
theorem word_took {size n : Nat} (h : word size c = .ok n c') : n < 256 ^ size ∧ c.Took (Little.encode size n) c' := by
  obtain ⟨out, c₁, hout, h⟩ := edit_bind_ok.mp h
  cases h
  obtain ⟨rfl, htook⟩ := bytes_took hout
  refine ⟨Little.decode_lt out, ?_⟩
  rwa [Little.encode_decode]

theorem uint16_took {n : UInt16} (h : uint16 c = .ok n c') : c.Took (Field.uint16 n) c' := by
  obtain ⟨m, c₁, hm, h⟩ := edit_bind_ok.mp h
  cases h
  obtain ⟨hlt, htook⟩ := word_took hm
  unfold Field.uint16
  rwa [UInt16.toNat_ofNat', Nat.mod_eq_of_lt (by omega)]

theorem uint32_took {n : UInt32} (h : uint32 c = .ok n c') : c.Took (Field.uint32 n) c' := by
  obtain ⟨m, c₁, hm, h⟩ := edit_bind_ok.mp h
  cases h
  obtain ⟨hlt, htook⟩ := word_took hm
  unfold Field.uint32
  rwa [UInt32.toNat_ofNat', Nat.mod_eq_of_lt (by omega)]

theorem uint64_took {n : UInt64} (h : uint64 c = .ok n c') : c.Took (Field.uint64 n) c' := by
  obtain ⟨m, c₁, hm, h⟩ := edit_bind_ok.mp h
  cases h
  obtain ⟨hlt, htook⟩ := word_took hm
  unfold Field.uint64
  rwa [UInt64.toNat_ofNat', Nat.mod_eq_of_lt (by omega)]

theorem int8_took {v : Int8} (h : int8 c = .ok v c') : c.Took [v.toUInt8] c' := by
  obtain ⟨b, c₁, hb, h⟩ := edit_bind_ok.mp h
  cases h
  exact byte_took hb

theorem int32_took {v : Int32} (h : int32 c = .ok v c') : c.Took (Field.uint32 v.toUInt32) c' := by
  obtain ⟨n, c₁, hn, h⟩ := edit_bind_ok.mp h
  cases h
  exact uint32_took hn

theorem int64_took {v : Int64} (h : int64 c = .ok v c') : c.Took (Field.uint64 v.toUInt64) c' := by
  obtain ⟨n, c₁, hn, h⟩ := edit_bind_ok.mp h
  cases h
  exact uint64_took hn

theorem covers_of_took {n : Nat} {bytes : List UInt8} (h : c.Took bytes c') (hlimit : n < 0x20000000)
    (hsize : Compressed.size n ≤ bytes.length) : c.Covers c' (Compressed.encode n) := by
  obtain ⟨out, hout, hlength⟩ := Compressed.encode_of_le (Nat.le_of_lt_succ hlimit)
  have := h.length_rest
  exact ⟨out, hout, by omega⟩

/-- No form of a number is shorter than the one that is written. -/
theorem compressed_covers {n : Nat} (h : compressed c = .ok n c') : c.Covers c' (Compressed.encode n) := by
  obtain ⟨first, c₁, hfirst, h⟩ := edit_bind_ok.mp h
  have htook := byte_took hfirst
  have hlt := first.toNat_lt
  simp only [UInt8.lt_iff_toNat_lt] at h
  split at h
  · next hone =>
    have hone : first.toNat < 0x80 := hone
    cases h
    refine covers_of_took htook (by omega) (Nat.le_of_eq ?_)
    exact if_pos (Nat.le_of_lt_succ hone)
  · split at h
    · next htwo =>
      have htwo : first.toNat < 0xC0 := htwo
      obtain ⟨second, c₂, hsecond, h⟩ := edit_bind_ok.mp h
      cases h
      have := second.toNat_lt
      refine covers_of_took (htook.append (byte_took hsecond)) (by omega) ?_
      unfold Compressed.size
      simp only [List.length_append, List.length_singleton]
      split_ifs <;> omega
    · split at h
      · next hfour =>
        have hfour : first.toNat < 0xE0 := hfour
        obtain ⟨b1, c₂, hb1, h⟩ := edit_bind_ok.mp h
        obtain ⟨b2, c₃, hb2, h⟩ := edit_bind_ok.mp h
        obtain ⟨b3, c₄, hb3, h⟩ := edit_bind_ok.mp h
        cases h
        have := b1.toNat_lt
        have := b2.toNat_lt
        have := b3.toNat_lt
        refine covers_of_took (htook.append ((byte_took hb1).append ((byte_took hb2).append (byte_took hb3))))
          (by omega) (Compressed.size_le _)
      · cases h

theorem compressedInt_covers {v : Int} (h : compressedInt c = .ok v c') : c.Covers c' (Compressed.encodeInt v) := by
  obtain ⟨n, c₁, hn, h⟩ := edit_bind_ok.mp h
  cases h
  unfold Compressed.encodeInt
  rw [Compressed.zigzag_unzigzag]
  exact compressed_covers hn

/-- Elements that are read one after another onto others, each from the bytes that it is written with. -/
theorem timesOnto_took {r : Reader α} {write : α → List UInt8} (hr : ∀ c a c', r c = .ok a c' → c.Took (write a) c')
    {n : Nat} {done as : List α} (h : timesOnto r n done c = .ok as c') :
    ∃ new, as = done.reverse ++ new ∧ c.Took (new.flatMap write) c' := by
  induction n generalizing done c with
  | zero =>
    cases h
    exact ⟨[], (List.append_nil _).symm, .refl _⟩
  | succ n ih =>
    rw [timesOnto] at h
    cases hc : r c with
    | error fault c₁ =>
      simp only [hc] at h
      cases h
    | ok a c₁ =>
      simp only [hc] at h
      obtain ⟨new, rfl, htook⟩ := ih h
      exact ⟨a :: new, by simp, (hr _ _ _ hc).append htook⟩

theorem times_took {r : Reader α} {write : α → List UInt8} (hr : ∀ c a c', r c = .ok a c' → c.Took (write a) c')
    {n : Nat} {as : List α} (h : times n r c = .ok as c') : c.Took (as.flatMap write) c' := by
  obtain ⟨new, rfl, htook⟩ := timesOnto_took hr h
  exact htook

end Reader

end CilProbes
