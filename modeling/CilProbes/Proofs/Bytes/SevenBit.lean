import CilProbes.Bytes.Field
import CilProbes.Proofs.Bytes.Taken
import Mathlib.Algebra.BigOperators.Ring.List
import Mathlib.Tactic.Ring

/-!
# What seven-bit integers are worth

The bytes of a seven-bit integer all go on but the last one (`SevenBit.Groups`), and add up to its value
(`SevenBit.value`). A number is written in such bytes (`groups_encode`, `value_encode`), and such bytes are read wherever
they come (`reads_groups`), of which those that are written are a case (`reads_sevenBit`). The reader takes five of them at
most and keeps the low 32 bits of what they add up to (`sevenBit_groups`).
-/

namespace CilProbes

namespace SevenBit

/-- What groups of seven bits add up to, the lowest first. -/
def value (bytes : List UInt8) : Nat :=
  (bytes.mapIdx fun i b => b.toNat % 128 * 2 ^ (7 * i)).sum

/-- The bytes of one integer: the high bit of each tells that another one follows. -/
inductive Groups : List UInt8 → Prop
  | last {b : UInt8} : b < 0x80 → Groups [b]
  | more {b : UInt8} {bytes : List UInt8} : 0x80 ≤ b → Groups bytes → Groups (b :: bytes)

theorem value_cons (b : UInt8) (bytes : List UInt8) : value (b :: bytes) = b.toNat % 128 + 128 * value bytes := by
  have hrest : (bytes.mapIdx fun i b => b.toNat % 128 * 2 ^ (7 * (i + 1))) =
      (bytes.mapIdx fun i b => b.toNat % 128 * 2 ^ (7 * i)).map (128 * ·) := by
    refine List.ext_getElem (by simp) fun i _ _ => ?_
    rw [List.getElem_map, List.getElem_mapIdx, List.getElem_mapIdx]
    ring
  unfold value
  rw [List.mapIdx_cons, List.sum_cons, hrest, List.sum_map_mul_left, List.map_id']
  simp

theorem value_singleton (b : UInt8) : value [b] = b.toNat % 128 :=
  value_cons b []

theorem value_lt (bytes : List UInt8) : value bytes < 128 ^ bytes.length := by
  induction bytes with
  | nil => exact Nat.one_pos
  | cons b bytes ih =>
    rw [value_cons, List.length_cons, Nat.pow_succ]
    omega

theorem value_append (front back : List UInt8) : value (front ++ back) = value front + 128 ^ front.length * value back := by
  induction front with
  | nil => simp [value]
  | cons b front ih =>
    rw [List.cons_append, value_cons, value_cons, ih, List.length_cons]
    ring

/-- Before its end, an integer goes on. -/
theorem Groups.unended {bytes : List UInt8} (h : Groups bytes) {n : Nat} (hn : n < bytes.length) :
    ∀ b ∈ bytes.take n, 0x80 ≤ b := by
  induction h generalizing n with
  | last =>
    rw [Nat.lt_one_iff.mp hn]
    simp
  | more hb _ ih =>
    cases n with
    | zero => simp
    | succ n =>
      rw [List.take_succ_cons, List.forall_mem_cons]
      exact ⟨hb, ih (Nat.lt_of_succ_lt_succ hn)⟩

/-- Bytes hold an integer of at most `left` groups, or none of the first `left` of them is the last one. -/
theorem groups_or_unended (left : Nat) (bytes : List UInt8) :
    (∃ front back, bytes = front ++ back ∧ Groups front ∧ front.length ≤ left) ∨ ∀ b ∈ bytes.take left, 0x80 ≤ b := by
  induction left generalizing bytes with
  | zero => right; simp
  | succ left ih =>
    cases bytes with
    | nil => right; simp
    | cons b bytes =>
      rcases Decidable.em (b < 0x80) with hb | hb
      · exact .inl ⟨[b], bytes, rfl, .last hb, Nat.le_add_left ..⟩
      rcases ih bytes with ⟨front, back, rfl, hfront, hlen⟩ | hrest
      · exact .inl ⟨b :: front, back, rfl, .more (UInt8.not_lt.mp hb) hfront, Nat.succ_le_succ hlen⟩
      · exact .inr (List.forall_mem_cons.mpr ⟨UInt8.not_lt.mp hb, hrest⟩)

/-! ## What is written -/

theorem groups_encode (n : Nat) : Groups (encode n) := by
  induction n using encode.induct with
  | case1 n h =>
    rw [encode, if_pos h]
    refine .last (UInt8.lt_iff_toNat_lt.mpr ?_)
    rw [UInt8.toNat_ofNat']
    show n % 2 ^ 8 < 128
    omega
  | case2 n h ih =>
    rw [encode, if_neg h]
    refine .more (UInt8.le_iff_toNat_le.mpr ?_) ih
    rw [UInt8.toNat_ofNat']
    show 128 ≤ (128 + n % 128) % 2 ^ 8
    omega

theorem value_encode (n : Nat) : value (encode n) = n := by
  induction n using encode.induct with
  | case1 n h =>
    rw [encode, if_pos h, value_singleton, UInt8.toNat_ofNat']
    omega
  | case2 n h ih =>
    rw [encode, if_neg h, value_cons, ih, UInt8.toNat_ofNat']
    omega

theorem length_encode_le {left n : Nat} (hleft : 0 < left) (h : n < 128 ^ left) : (encode n).length ≤ left := by
  induction left generalizing n with
  | zero => exact absurd hleft (Nat.lt_irrefl 0)
  | succ left ih =>
    rw [encode]
    split
    · exact Nat.succ_le_succ (Nat.zero_le left)
    · next hn =>
      rw [Nat.pow_succ] at h
      have hpos : 0 < left := by
        by_contra hzero
        rw [Nat.eq_zero_of_not_pos hzero] at h
        omega
      exact Nat.succ_le_succ (ih hpos (by omega))

end SevenBit

namespace Reader

open SevenBit

variable {c : Cursor} {bytes : List UInt8}

/-! ## Reading groups -/

/-- Groups of seven bits add up onto what was read before. -/
theorem reads_groupsFrom (h : Groups bytes) {left : Nat} (hleft : bytes.length ≤ left) (shift start : Nat) :
    Reads (sevenBitFrom left shift start) bytes (UInt32.ofNat (start + value bytes * 2 ^ shift)) := by
  induction h generalizing left shift start with
  | @last b hb =>
    obtain ⟨left, rfl⟩ := Nat.exists_eq_add_of_le' hleft
    refine Reads.byte_bind ?_
    rw [if_pos hb, value_singleton]
    exact Reads.pure _
  | @more b bytes hb hbytes ih =>
    obtain ⟨left, rfl⟩ := Nat.exists_eq_add_of_le' (Nat.le_trans (Nat.le_add_left 1 _) hleft)
    refine Reads.byte_bind ?_
    rw [if_neg (UInt8.not_lt.mpr hb), value_cons]
    have hsum : start + (b.toNat % 128 + 128 * value bytes) * 2 ^ shift =
        start + b.toNat % 128 * 2 ^ shift + value bytes * 2 ^ (shift + 7) := by ring
    rw [hsum]
    exact ih (Nat.le_of_succ_le_succ hleft) _ _

/-- An integer of at most five groups is read. -/
theorem reads_groups (h : Groups bytes) (hlen : bytes.length ≤ 5) :
    Reads sevenBit bytes (UInt32.ofNat (value bytes)) := by
  have := reads_groupsFrom h hlen 0 0
  rwa [Nat.pow_zero, Nat.mul_one, Nat.zero_add] at this

theorem reads_sevenBit {n : Nat} (h : n < 2 ^ 32) : Reads sevenBit (SevenBit.encode n) (UInt32.ofNat n) := by
  have := reads_groups (groups_encode n) (length_encode_le (by decide) (by omega))
  rwa [value_encode] at this

/-- Where no group is the last one, there are too many of them, or they are cut off. -/
theorem sevenBitFrom_unended {left : Nat} (h : ∀ b ∈ c.rest.take left, 0x80 ≤ b) (shift start : Nat) :
    ∃ c', sevenBitFrom left shift start c = .error
      (if left ≤ c.rest.length then .malformed (.sevenBitInteger (shift + 7 * left)) else .outOfBounds) c' := by
  induction left generalizing c shift start with
  | zero =>
    refine ⟨c, ?_⟩
    rw [if_pos (Nat.zero_le _)]
    rfl
  | succ left ih =>
    cases hrest : c.rest with
    | nil =>
      refine ⟨c, edit_bind_of_error ?_⟩
      unfold byte
      split
      · rw [if_neg (by simp)]
      · next heq => rw [hrest] at heq; cases heq
    | cons b rest =>
      rw [hrest] at h
      obtain ⟨hb, hmore⟩ := List.forall_mem_cons.mp h
      obtain ⟨c₁, hbyte, -, hrest₁⟩ := reads_byte b c.pos c rest rfl hrest
      obtain ⟨c', hc'⟩ := ih (by rwa [hrest₁]) (shift + 7) (start + b.toNat % 128 * 2 ^ shift)
      refine ⟨c', (edit_bind_of_ok hbyte).trans ?_⟩
      show (if b < 0x80 then pure _ else sevenBitFrom _ _ _ : Reader UInt32) c₁ = _
      rw [if_neg (UInt8.not_lt.mpr hb), hc', hrest₁]
      simp only [List.length_cons, Nat.add_le_add_iff_right, show shift + 7 + 7 * left = shift + 7 * (left + 1) by ring]

theorem sevenBit_unended (h : ∀ b ∈ c.rest.take 5, 0x80 ≤ b) :
    ∃ c', sevenBit c = .error (if 5 ≤ c.rest.length then .malformed (.sevenBitInteger 35) else .outOfBounds) c' :=
  sevenBitFrom_unended h 0 0

/-- The low 32 bits of five groups are all their bits just if the fifth holds four bits at most. -/
theorem mod_value_eq_iff (hlen : bytes.length ≤ 5) :
    value bytes % 2 ^ 32 = value bytes ↔ ∀ b, bytes[4]? = some b → b.toNat % 128 < 16 := by
  rw [Nat.mod_eq_iff_lt (by decide)]
  cases hfifth : bytes[4]? with
  | none =>
    have hshort : bytes.length ≤ 4 := List.getElem?_eq_none_iff.mp hfifth
    have hlt : value bytes < 128 ^ 4 := Nat.lt_of_lt_of_le (value_lt bytes) (Nat.pow_le_pow_right (by decide) hshort)
    constructor
    · intro _ b hb
      cases hb
    · intro _
      exact Nat.lt_trans hlt (by decide)
  | some b =>
    obtain ⟨hlt, hb⟩ := List.getElem?_eq_some_iff.mp hfifth
    have hfront : (bytes.take 4).length = 4 := by rw [List.length_take]; omega
    have hback : bytes.drop 4 = [b] := by rw [List.drop_eq_getElem_cons hlt, hb, List.drop_eq_nil_of_le hlen]
    have hbound := value_lt (bytes.take 4)
    rw [hfront] at hbound
    have hvalue : value bytes = value (bytes.take 4) + 128 ^ 4 * (b.toNat % 128) := by
      calc value bytes
        _ = value (bytes.take 4 ++ bytes.drop 4) := by rw [List.take_append_drop]
        _ = value (bytes.take 4) + 128 ^ 4 * (b.toNat % 128) := by rw [value_append, hfront, hback, value_singleton]
    rw [hvalue]
    constructor
    · intro h b' hb'
      cases hb'
      omega
    · intro h
      have := h b rfl
      omega

/--
What is read is what the bytes that were taken add up to, but for the bits past the thirty-second; so it is the true value
unless a fifth group holds more than four bits. An integer of five groups at most is read, one of more groups is refused,
and so are bytes of which none ends an integer.
-/
theorem sevenBit_groups (c : Cursor) :
    (∀ v c', sevenBit c = .ok v c' → ∃ bytes, c.Took bytes c' ∧ Groups bytes ∧ bytes.length ≤ 5 ∧
      v.toNat = value bytes % 2 ^ 32 ∧
      (v.toNat = value bytes ↔ ∀ b, bytes[4]? = some b → b.toNat % 128 < 16)) ∧
    (∀ bytes tail, Groups bytes → c.rest = bytes ++ tail →
      if bytes.length ≤ 5 then ∃ c', sevenBit c = .ok (UInt32.ofNat (value bytes)) c' ∧ c'.rest = tail
      else ∃ c', sevenBit c = .error (.malformed (.sevenBitInteger 35)) c') ∧
    ((∀ b ∈ c.rest, 0x80 ≤ b) →
      ∃ c', sevenBit c = .error (if 5 ≤ c.rest.length then .malformed (.sevenBitInteger 35) else .outOfBounds) c') := by
  refine ⟨fun v c' hread => ?_, fun bytes tail hbytes hrest => ?_, fun hall => ?_⟩
  · rcases groups_or_unended 5 c.rest with ⟨bytes, tail, hrest, hbytes, hlen⟩ | hnone
    · obtain ⟨c₁, hread₁, hpos, htail⟩ := reads_groups hbytes hlen c.pos c tail rfl hrest
      cases hread.symm.trans hread₁
      have hv : (UInt32.ofNat (value bytes)).toNat = value bytes % 2 ^ 32 := UInt32.toNat_ofNat'
      refine ⟨bytes, ⟨by rw [htail, hrest], hpos⟩, hbytes, hlen, hv, ?_⟩
      rw [hv]
      exact mod_value_eq_iff hlen
    · obtain ⟨c₁, hfail⟩ := sevenBit_unended hnone
      cases hread.symm.trans hfail
  · split
    · next hlen =>
      obtain ⟨c', hread, -, htail⟩ := reads_groups hbytes hlen c.pos c tail rfl hrest
      exact ⟨c', hread, htail⟩
    · next hlen =>
      rw [Nat.not_le] at hlen
      have htake : c.rest.take 5 = bytes.take 5 := by rw [hrest, List.take_append_of_le_length (Nat.le_of_lt hlen)]
      obtain ⟨c', hfail⟩ := sevenBit_unended (c := c) (by rw [htake]; exact hbytes.unended hlen)
      have hsize : 5 ≤ c.rest.length := by rw [hrest, List.length_append]; omega
      rw [if_pos hsize] at hfail
      exact ⟨c', hfail⟩
  · exact sevenBit_unended fun b hb => hall b (List.mem_of_mem_take hb)

/-- Three groups and a byte behind them. -/
theorem sevenBit_groups_three :
    ∃ bytes v c', sevenBit (Cursor.start [0xE5, 0x8E, 0x26, 0x01]) = .ok v c' ∧ Groups bytes ∧
      [0xE5, 0x8E, 0x26, 0x01] = bytes ++ c'.rest ∧ v.toNat = value bytes % 2 ^ 32 ∧ v = 624485 := by
  obtain ⟨v, c', hread, hv⟩ :
      ∃ v c', sevenBit (Cursor.start [0xE5, 0x8E, 0x26, 0x01]) = .ok v c' ∧ v = 624485 := by decide +kernel
  obtain ⟨bytes, htook, hbytes, -, hvalue, -⟩ := (sevenBit_groups _).1 v c' hread
  exact ⟨bytes, v, c', hread, hbytes, htook.rest, hvalue, hv⟩

/--
The highest bit of 2^32 is the fifth one of its fifth group. It is dropped, so 2^32 is read as 0, as a size of a string too.
-/
theorem sevenBit_groups_dropped :
    Groups [0x80, 0x80, 0x80, 0x80, 0x10] ∧ value [0x80, 0x80, 0x80, 0x80, 0x10] = 2 ^ 32 ∧
      (∃ v c', sevenBit (Cursor.start [0x80, 0x80, 0x80, 0x80, 0x10]) = .ok v c' ∧ v = 0 ∧ c'.rest = []) ∧
      ∃ text c', string (Cursor.start [0x80, 0x80, 0x80, 0x80, 0x10]) = .ok text c' ∧ text = "" ∧ c'.rest = [] := by
  refine ⟨?_, by decide, by decide +kernel, by decide +kernel⟩
  exact .more (by decide) (.more (by decide) (.more (by decide) (.more (by decide) (.last (by decide)))))

end Reader

end CilProbes
