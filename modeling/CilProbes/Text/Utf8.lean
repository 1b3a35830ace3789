/-!
# UTF-8

Reading text from bytes. Both readers walk the bytes by `Utf8.lead`, which classifies what stands in front: a character
with its size, an invalid piece with its size, or a sequence that the end of the input cuts short.

- `Utf8.decode` stops at the first piece that is not a character and reports it with its index;
- `Utf8.decodeLossy` puts one replacement character in place of each such piece;
- `Utf8.encode` writes characters.
-/

namespace CilProbes.Utf8

/-- What stands in front of a nonempty byte string. -/
inductive Lead where
  /-- A character written in `size` bytes. -/
  | scalar (c : Char) (size : Nat)
  /-- The first `size` bytes begin no character, and no longer piece begins one either. -/
  | broken (size : Nat)
  /-- The input ends inside a character. -/
  | cut
  deriving DecidableEq, Repr

/-- Number of continuation bytes announced by a first byte, and the bits of the character it holds. -/
def announced (b : UInt8) : Option (Nat × Nat) :=
  if b < 0x80 then some (0, b.toNat)
  else if b < 0xC2 then none
  else if b < 0xE0 then some (1, b.toNat - 0xC0)
  else if b < 0xF0 then some (2, b.toNat - 0xE0)
  else if b < 0xF5 then some (3, b.toNat - 0xF0)
  else none

/--
Range of the second byte after a given first one: it leaves out overlong forms, surrogates and values past the last
character.
-/
def secondRange (b : UInt8) : UInt8 × UInt8 :=
  if b = 0xE0 then (0xA0, 0xBF)
  else if b = 0xED then (0x80, 0x9F)
  else if b = 0xF0 then (0x90, 0xBF)
  else if b = 0xF4 then (0x80, 0x8F)
  else (0x80, 0xBF)

/-- Reads `left` continuation bytes, the next of them between `lo` and `hi`, onto a value read from `seen` bytes. -/
def continued : (left : Nat) → (lo hi : UInt8) → (value seen : Nat) → List UInt8 → Lead
  | 0, _, _, value, seen, _ => .scalar (Char.ofNat value) seen
  | _ + 1, _, _, _, _, [] => .cut
  | left + 1, lo, hi, value, seen, b :: rest =>
    if lo ≤ b ∧ b ≤ hi then continued left 0x80 0xBF (value * 64 + b.toNat % 64) (seen + 1) rest
    else .broken seen

/-- Classifies the front of `b :: rest`. -/
def lead (b : UInt8) (rest : List UInt8) : Lead :=
  match announced b with
  | none => .broken 1
  | some (more, value) => continued more (secondRange b).1 (secondRange b).2 value 1 rest

/-- Why bytes are not text; `index` counts bytes from the start of the text. -/
inductive Fault where
  | broken (size index : Nat)
  | cut (index : Nat)
  deriving DecidableEq, Repr

/-- The wording of a fault. -/
def Fault.message : Fault → String
  | .broken size index => s!"invalid utf-8 sequence of {size} bytes from index {index}"
  | .cut index => s!"incomplete utf-8 byte sequence from index {index}"

/-- Reads `bytes`, which start at index `index` of the text. -/
def decodeFrom (index : Nat) (bytes : List UInt8) : Except Fault (List Char) :=
  match bytes with
  | [] => .ok []
  | b :: rest =>
    match lead b rest with
    | .scalar c size =>
      match decodeFrom (index + size) (rest.drop (size - 1)) with
      | .ok cs => .ok (c :: cs)
      | .error fault => .error fault
    | .broken size => .error (.broken size index)
    | .cut => .error (.cut index)
  termination_by bytes.length
  decreasing_by simp only [List.length_drop, List.length_cons]; omega

/-- The text whose UTF-8 form is `bytes`. -/
def decode (bytes : List UInt8) : Except Fault String :=
  (decodeFrom 0 bytes).map String.ofList

/-- The reverse of `done`, then the characters of `bytes`. -/
def decodeLossyOnto (done : List Char) (bytes : List UInt8) : List Char :=
  match bytes with
  | [] => done.reverse
  | b :: rest =>
    match lead b rest with
    | .scalar c size => decodeLossyOnto (c :: done) (rest.drop (size - 1))
    | .broken size => decodeLossyOnto ('\uFFFD' :: done) (rest.drop (size - 1))
    | .cut => ('\uFFFD' :: done).reverse
  termination_by bytes.length
  decreasing_by all_goals (simp only [List.length_drop, List.length_cons]; omega)

/-- The characters of `bytes`, with U+FFFD for each longest piece that begins no character. -/
def decodeLossy (bytes : List UInt8) : List Char :=
  decodeLossyOnto [] bytes

/-- The UTF-8 form of a text. -/
def encode (text : String) : List UInt8 :=
  text.toList.flatMap String.utf8EncodeChar

end CilProbes.Utf8
