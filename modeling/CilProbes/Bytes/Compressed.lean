import CilProbes.Bytes.Cursor

/-!
# Integers of variable size

Two families. Compressed integers have a size tag in the high bits of the first byte and their bytes highest first; they
reach up to `Compressed.limit`, and signed ones keep the sign in the lowest bit (`Compressed.unzigzag_zigzag`).
Seven-bit integers have groups of seven bits, lowest first, each byte but the last with its high bit set.

A writer gives the bytes of one integer, or a fault and no bytes.
-/

namespace CilProbes

namespace Compressed

/-- The largest number with a compressed form. -/
def limit : Nat := 0x1FFFFFFF

/-- One byte `0…`, two bytes `10…` or four bytes `110…`. -/
def encode (n : Nat) : Except Fault (List UInt8) :=
  if n ≤ 0x7F then .ok [UInt8.ofNat n]
  else if n ≤ 0x3FFF then .ok [UInt8.ofNat (0x80 + n / 0x100), UInt8.ofNat n]
  else if n ≤ limit then
    .ok [UInt8.ofNat (0xC0 + n / 0x1000000), UInt8.ofNat (n / 0x10000), UInt8.ofNat (n / 0x100), UInt8.ofNat n]
  else .error (.malformed (.compressedRange n))

/-- The number a signed one is written as. -/
def zigzag (v : Int) : Nat :=
  if 0 ≤ v then 2 * v.toNat else 2 * (-v - 1).toNat + 1

/-- The signed number written as `n`. -/
def unzigzag (n : Nat) : Int :=
  if n % 2 = 0 then Int.ofNat (n / 2) else -(Int.ofNat (n / 2) + 1)

def encodeInt (v : Int) : Except Fault (List UInt8) :=
  encode (zigzag v)

theorem unzigzag_zigzag (v : Int) : unzigzag (zigzag v) = v := by
  unfold unzigzag zigzag
  split <;> split <;> simp only [Int.ofNat_eq_natCast] <;> omega

theorem zigzag_unzigzag (n : Nat) : zigzag (unzigzag n) = n := by
  unfold unzigzag zigzag
  split <;> split <;> simp only [Int.ofNat_eq_natCast] at * <;> omega

end Compressed

namespace SevenBit

/-- Seven bits to a byte, lowest first. -/
def encode (n : Nat) : List UInt8 :=
  if n < 128 then [UInt8.ofNat n] else UInt8.ofNat (128 + n % 128) :: encode (n / 128)

end SevenBit

namespace Reader

/-- A compressed unsigned number. -/
def compressed : Reader Nat := do
  let first ← byte
  if first < 0x80 then
    return first.toNat
  else if first < 0xC0 then
    let second ← byte
    return (first.toNat - 0x80) * 0x100 + second.toNat
  else if first < 0xE0 then
    let b1 ← byte
    let b2 ← byte
    let b3 ← byte
    return (first.toNat - 0xC0) * 0x1000000 + b1.toNat * 0x10000 + b2.toNat * 0x100 + b3.toNat
  else
    fail (.compressedInteger first)

/-- A compressed signed number. -/
def compressedInt : Reader Int := do
  return Compressed.unzigzag (← compressed)

/-- Reads up to `left` groups of seven bits onto `value`, the first of them worth `2 ^ shift`. -/
def sevenBitFrom : (left shift value : Nat) → Reader UInt32
  | 0, shift, _ => fail (.sevenBitInteger shift)
  | left + 1, shift, value => do
    let b ← byte
    let value := value + b.toNat % 128 * 2 ^ shift
    if b < 0x80 then return UInt32.ofNat value else sevenBitFrom left (shift + 7) value

/-- A seven-bit integer of at most five groups; bits past the thirty-second are dropped. -/
def sevenBit : Reader UInt32 :=
  sevenBitFrom 5 0 0

end Reader

end CilProbes
