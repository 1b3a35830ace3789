/-!
# Little-endian words

`Little.encode size n` writes the low `size` bytes of `n`, lowest first; `Little.decode` reads bytes as a number. What was
read is written again (`Little.encode_decode`).
-/

namespace CilProbes.Little

def encode : (size : Nat) → Nat → List UInt8
  | 0, _ => []
  | size + 1, n => UInt8.ofNat n :: encode size (n / 256)

def decode : List UInt8 → Nat
  | [] => 0
  | b :: bs => b.toNat + 256 * decode bs

theorem length_encode (size n : Nat) : (encode size n).length = size := by
  induction size generalizing n with
  | zero => rfl
  | succ size ih => simp [encode, ih]

theorem encode_decode (bs : List UInt8) : encode bs.length (decode bs) = bs := by
  induction bs with
  | nil => rfl
  | cons b bs ih =>
    simp only [List.length_cons, decode, encode]
    have h : (b.toNat + 256 * decode bs) / 256 = decode bs := by have := b.toNat_lt; omega
    rw [h, ih]
    congr 1
    apply UInt8.toNat_inj.mp
    have := b.toNat_lt
    rw [UInt8.toNat_ofNat']
    omega

end CilProbes.Little
