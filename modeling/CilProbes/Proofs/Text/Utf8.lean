import CilProbes.Text.Utf8
import Mathlib.Algebra.Ring.Nat
import Mathlib.Tactic.SplitIfs

/-!
# Reading back UTF-8

What is written for a text is read as that text (`Utf8.decode_encode`). The ranges of the second byte cut nothing off:
a character in its written form is never overlong, no surrogate and not past the last one. A text that is read takes no
more bytes when it is written again (`length_encode_of_decode`).
-/

namespace CilProbes.Utf8

/-- What a first byte announces, by its number. -/
theorem announced_ofNat {n : Nat} (h : n < 256) :
    announced (UInt8.ofNat n) =
      if n < 0x80 then some (0, n)
      else if n < 0xC2 then none
      else if n < 0xE0 then some (1, n - 0xC0)
      else if n < 0xF0 then some (2, n - 0xE0)
      else if n < 0xF5 then some (3, n - 0xF0)
      else none := by
  have hn : (UInt8.ofNat n).toNat = n := by rw [UInt8.toNat_ofNat']; omega
  unfold announced
  simp only [UInt8.lt_iff_toNat_lt, hn]
  rfl

/-- A second byte that makes no overlong form, no surrogate and nothing past the last character is in range. -/
theorem mem_secondRange {n m : Nat} (hn : n < 256) (hm : 0x80 ≤ m ∧ m ≤ 0xBF) (hE0 : n = 0xE0 → 0xA0 ≤ m)
    (hED : n = 0xED → m ≤ 0x9F) (hF0 : n = 0xF0 → 0x90 ≤ m) (hF4 : n = 0xF4 → m ≤ 0x8F) :
    (secondRange (UInt8.ofNat n)).1.toNat ≤ m ∧ m ≤ (secondRange (UInt8.ofNat n)).2.toNat := by
  have h : (UInt8.ofNat n).toNat = n := by rw [UInt8.toNat_ofNat']; omega
  unfold secondRange
  simp only [← UInt8.toNat_inj, h]
  split_ifs with h0 h1 h2 h3
  · exact ⟨hE0 h0, hm.2⟩
  · exact ⟨hm.1, hED h1⟩
  · exact ⟨hF0 h2, hm.2⟩
  · exact ⟨hm.1, hF4 h3⟩
  · exact hm

/-- A byte in range continues a character. -/
theorem continued_ofNat {left value seen n : Nat} {lo hi : UInt8} (rest : List UInt8) (hn : n < 256)
    (h : lo.toNat ≤ n ∧ n ≤ hi.toNat) :
    continued (left + 1) lo hi value seen (UInt8.ofNat n :: rest) =
      continued left 0x80 0xBF (value * 64 + n % 64) (seen + 1) rest := by
  have hb : (UInt8.ofNat n).toNat = n := by rw [UInt8.toNat_ofNat']; omega
  rw [continued, if_pos ⟨UInt8.le_iff_toNat_le.mpr (by omega), UInt8.le_iff_toNat_le.mpr (by omega)⟩, hb]

/-- A third or fourth byte. -/
theorem continued_low {left value seen : Nat} (v : Nat) (rest : List UInt8) :
    continued (left + 1) 0x80 0xBF value seen (UInt8.ofNat (v % 64 + 0x80) :: rest) =
      continued left 0x80 0xBF (value * 64 + v % 64) (seen + 1) rest := by
  have hlo : (0x80 : UInt8).toNat = 0x80 := rfl
  have hhi : (0xBF : UInt8).toNat = 0xBF := rfl
  rw [continued_ofNat rest (by omega) (by omega), show (v % 64 + 0x80) % 64 = v % 64 by omega]

/-- The written form of a character is classified as this character. -/
theorem exists_lead (c : Char) :
    ∃ b more, String.utf8EncodeChar c = b :: more ∧ ∀ tail, lead b (more ++ tail) = .scalar c (more.length + 1) := by
  have hc : Char.ofNat c.val.toNat = c := Char.ofNat_toNat c
  have hvalid : c.val.toNat < 0xD800 ∨ 0xDFFF < c.val.toNat ∧ c.val.toNat < 0x110000 := c.valid
  unfold String.utf8EncodeChar
  generalize c.val.toNat = v at hc hvalid
  dsimp only
  split
  · refine ⟨_, [], rfl, fun tail => ?_⟩
    rw [lead, announced_ofNat (by omega), if_pos (by omega)]
    simp only [continued, hc, List.length_nil]
  split
  · refine ⟨_, _, rfl, fun tail => ?_⟩
    rw [lead, announced_ofNat (by omega), if_neg (by omega), if_neg (by omega), if_pos (by omega)]
    simp only [List.cons_append, List.nil_append, List.length_cons, List.length_nil]
    rw [continued_ofNat _ (by omega) (mem_secondRange (by omega) (by omega) (by omega) (by omega) (by omega) (by omega)),
      continued, show (v / 64 % 32 + 0xC0 - 0xC0) * 64 + (v % 64 + 0x80) % 64 = v by omega, hc]
  split
  · refine ⟨_, _, rfl, fun tail => ?_⟩
    rw [lead, announced_ofNat (by omega), if_neg (by omega), if_neg (by omega), if_neg (by omega), if_pos (by omega)]
    simp only [List.cons_append, List.nil_append, List.length_cons, List.length_nil]
    rw [continued_ofNat _ (by omega) (mem_secondRange (by omega) (by omega) (by omega) (by omega) (by omega) (by omega)),
      continued_low, continued,
      show ((v / 4096 % 16 + 0xE0 - 0xE0) * 64 + (v / 64 % 64 + 0x80) % 64) * 64 + v % 64 = v by omega, hc]
  · refine ⟨_, _, rfl, fun tail => ?_⟩
    rw [lead, announced_ofNat (by omega), if_neg (by omega), if_neg (by omega), if_neg (by omega), if_neg (by omega),
      if_pos (by omega)]
    simp only [List.cons_append, List.nil_append, List.length_cons, List.length_nil]
    rw [continued_ofNat _ (by omega) (mem_secondRange (by omega) (by omega) (by omega) (by omega) (by omega) (by omega)),
      continued_low, continued_low, continued,
      show (((v / 262144 % 8 + 0xF0 - 0xF0) * 64 + (v / 4096 % 64 + 0x80) % 64) * 64 + v / 64 % 64) * 64 + v % 64 = v by
        omega, hc]

theorem decodeFrom_flatMap (cs : List Char) (index : Nat) :
    decodeFrom index (cs.flatMap String.utf8EncodeChar) = .ok cs := by
  induction cs generalizing index with
  | nil => rw [List.flatMap_nil, decodeFrom]
  | cons c cs ih =>
    obtain ⟨b, more, hb, hlead⟩ := exists_lead c
    rw [List.flatMap_cons, hb, List.cons_append, decodeFrom, hlead]
    simp only [Nat.add_sub_cancel, List.drop_left, ih]

/-- What is written for a text is read as this text. -/
theorem decode_encode (text : String) : decode (encode text) = .ok text := by
  unfold decode encode
  rw [decodeFrom_flatMap]
  exact congrArg Except.ok String.ofList_toList

/-! ## Sizes -/

theorem toNat_ofNat_le (n : Nat) : (Char.ofNat n).toNat ≤ n := by
  by_cases hn : n.isValidChar
  · rw [Char.ofNat, dif_pos hn]
    exact Nat.le_refl n
  · rw [Char.ofNat, dif_neg hn]
    exact Nat.zero_le n

/-- A character that is read has the bits of the bytes that were read. -/
theorem continued_scalar {left value seen size : Nat} {lo hi : UInt8} {rest : List UInt8} {c : Char}
    (h : continued left lo hi value seen rest = .scalar c size) :
    size = seen + left ∧ left ≤ rest.length ∧ c.toNat < (value + 1) * 64 ^ left := by
  induction left generalizing lo hi value seen rest with
  | zero =>
    rw [continued] at h
    obtain ⟨rfl, rfl⟩ := Lead.scalar.inj h
    refine ⟨rfl, Nat.zero_le _, ?_⟩
    rw [Nat.pow_zero, Nat.mul_one]
    exact Nat.lt_succ_of_le (toNat_ofNat_le value)
  | succ left ih =>
    cases rest with
    | nil => cases h
    | cons b rest =>
      rw [continued] at h
      split at h
      · obtain ⟨hsize, hlen, hc⟩ := ih h
        refine ⟨by omega, Nat.succ_le_succ hlen, Nat.lt_of_lt_of_le hc ?_⟩
        have hstep : value * 64 + b.toNat % 64 + 1 ≤ (value + 1) * 64 := by omega
        calc (value * 64 + b.toNat % 64 + 1) * 64 ^ left
          _ ≤ (value + 1) * 64 * 64 ^ left := Nat.mul_le_mul_right _ hstep
          _ = (value + 1) * 64 ^ (left + 1) := by rw [Nat.mul_assoc, ← Nat.pow_succ']
      · cases h

theorem announced_sound {b : UInt8} {more value : Nat} (h : announced b = some (more, value)) :
    more = 0 ∧ value < 0x80 ∨ more = 1 ∧ value < 0x20 ∨ more = 2 ∧ value < 0x10 ∨ more = 3 := by
  unfold announced at h
  simp only [UInt8.lt_iff_toNat_lt] at h
  have h80 : (0x80 : UInt8).toNat = 0x80 := rfl
  have hE0 : (0xE0 : UInt8).toNat = 0xE0 := rfl
  have hF0 : (0xF0 : UInt8).toNat = 0xF0 := rfl
  split_ifs at h <;> obtain ⟨rfl, rfl⟩ := Prod.mk.inj (Option.some.inj h) <;> omega

/-- A character takes no more bytes than it was read from. -/
theorem lead_scalar {b : UInt8} {rest : List UInt8} {c : Char} {size : Nat} (h : lead b rest = .scalar c size) :
    (String.utf8EncodeChar c).length ≤ size ∧ size ≤ rest.length + 1 := by
  unfold lead at h
  cases hb : announced b with
  | none =>
    rw [hb] at h
    cases h
  | some found =>
    obtain ⟨more, value⟩ := found
    rw [hb] at h
    obtain ⟨rfl, hlen, hc⟩ := continued_scalar h
    refine ⟨?_, by omega⟩
    rw [String.length_utf8EncodeChar]
    have hval : c.val.toNat = c.toNat := rfl
    unfold Char.utf8Size
    simp only [UInt32.le_iff_toNat_le, hval, UInt32.toNat_ofNatLT]
    rcases announced_sound hb with ⟨rfl, hvalue⟩ | ⟨rfl, hvalue⟩ | ⟨rfl, hvalue⟩ | rfl <;> split_ifs <;> omega

theorem length_flatMap_of_decodeFrom {index : Nat} {bytes : List UInt8} {cs : List Char}
    (h : decodeFrom index bytes = .ok cs) : (cs.flatMap String.utf8EncodeChar).length ≤ bytes.length := by
  fun_induction decodeFrom index bytes generalizing cs with
  | case1 index =>
    cases h
    exact Nat.le_refl 0
  | case2 index b rest c size hlead more hmore ih =>
    cases h
    obtain ⟨hsize, hle⟩ := lead_scalar hlead
    have hrest := ih hmore
    rw [List.length_drop] at hrest
    rw [List.flatMap_cons, List.length_append, List.length_cons]
    omega
  | case3 => cases h
  | case4 => cases h
  | case5 => cases h

/-- A text takes no more bytes than it was read from. -/
theorem length_encode_of_decode {bytes : List UInt8} {text : String} (h : decode bytes = .ok text) :
    (encode text).length ≤ bytes.length := by
  unfold decode at h
  cases hcs : decodeFrom 0 bytes with
  | error fault =>
    rw [hcs] at h
    cases h
  | ok cs =>
    rw [hcs] at h
    cases h
    unfold encode
    rw [String.toList_ofList]
    exact length_flatMap_of_decodeFrom hcs

end CilProbes.Utf8
