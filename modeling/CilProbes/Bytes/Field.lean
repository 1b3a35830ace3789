import CilProbes.Bytes.Compressed

/-!
# Strings, blobs and counts

A string is its size as a seven-bit integer and its UTF-8 bytes; a blob is its size as a compressed integer and its
bytes; the elements of a list follow their count, a compressed integer.
-/

namespace CilProbes

namespace Field

def string (text : String) : List UInt8 :=
  let bytes := Utf8.encode text
  SevenBit.encode (bytes.length % 0x100000000) ++ bytes

/-- A number of elements. -/
def count (n : Nat) : Except Fault (List UInt8) :=
  if n < 0x100000000 then Compressed.encode n else .error (.malformed (.countTooLarge n))

def blob (bytes : List UInt8) : Except Fault (List UInt8) :=
  if bytes.length < 0x100000000 then
    (Compressed.encode bytes.length).map (· ++ bytes)
  else
    .error (.malformed (.blobTooLarge bytes.length))

def uint16 (n : UInt16) : List UInt8 :=
  Little.encode 2 n.toNat

def uint32 (n : UInt32) : List UInt8 :=
  Little.encode 4 n.toNat

def uint64 (n : UInt64) : List UInt8 :=
  Little.encode 8 n.toNat

/-- Zeros up to the next multiple of `alignment` after `size` bytes. -/
def padding (alignment size : Nat) : List UInt8 :=
  List.replicate ((alignment - size % alignment) % alignment) 0

end Field

namespace Reader

/-- A string; the bytes count as read also when they are not text. -/
def string : Reader String := do
  let size ← sevenBit
  let start ← pos
  let piece ← bytes size.toNat
  match Utf8.decode piece with
  | .ok text => return text
  | .error fault => fail (.text start (start + size.toNat) fault)

def blob : Reader (List UInt8) := do
  let size ← compressed
  bytes size

/-- A list of counted elements. -/
def list {α : Type} (element : Reader α) : Reader (List α) := do
  let count ← compressed
  times count element

end Reader

end CilProbes
