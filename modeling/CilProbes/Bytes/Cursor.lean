import CilProbes.Bytes.Little
import CilProbes.Fault

/-!
# Reading bytes

A `Cursor` is a position in a byte string; a `Reader` moves a cursor over what it reads. Every reader is total: it
gives a value, or a fault together with the cursor where it stopped. Words are read all or not at all.
-/

namespace CilProbes

/-- A position in a byte string, with the bytes from there on and the number of all bytes. -/
structure Cursor where
  data : List UInt8
  size : Nat
  pos : Nat
  rest : List UInt8
  size_eq : size = data.length
  rest_eq : rest = data.drop pos
  pos_le : pos ≤ size

namespace Cursor

/-- The cursor in front of all bytes. -/
def start (data : List UInt8) : Cursor :=
  ⟨data, data.length, 0, data, rfl, rfl, Nat.zero_le _⟩

/-- How many bytes are left. -/
def remaining (c : Cursor) : Nat :=
  c.size - c.pos

theorem length_rest (c : Cursor) : c.rest.length = c.remaining := by
  rw [c.rest_eq, List.length_drop, ← c.size_eq]
  rfl

/-- The cursor `n` bytes further on. -/
def advance (c : Cursor) (n : Nat) (h : n ≤ c.remaining) : Cursor where
  data := c.data
  size := c.size
  pos := c.pos + n
  rest := c.rest.drop n
  size_eq := c.size_eq
  rest_eq := by rw [c.rest_eq, List.drop_drop]
  pos_le := Nat.add_le_of_le_sub' c.pos_le h

/-- The cursor at a given position of the same bytes. -/
def moveTo (c : Cursor) (pos : Nat) (h : pos ≤ c.size) : Cursor :=
  ⟨c.data, c.size, pos, c.data.drop pos, c.size_eq, rfl, h⟩

end Cursor

/-- An operation that reads from a cursor. -/
abbrev Reader := Edit Cursor

namespace Reader

variable {α : Type}

def pos : Reader Nat := fun c => .ok c.pos c

/-- The bytes not read yet. -/
def ahead : Reader (List UInt8) := fun c => .ok c.rest c

def atEnd : Reader Bool := fun c => .ok c.rest.isEmpty c

/-- The number of bytes not read yet. -/
def remaining : Reader Nat := fun c => .ok c.remaining c

/-- The number of all bytes. -/
def length : Reader Nat := fun c => .ok c.size c

def fail (cause : Malformation) : Reader α := throw (.malformed cause)

/-- Moves over `n` bytes without reading them. -/
def skip (n : Nat) : Reader Unit := fun c =>
  if h : n ≤ c.remaining then .ok () (c.advance n h) else .error .outOfBounds c

/-- Moves to a position. -/
def seek (pos : Nat) : Reader Unit := fun c =>
  if h : pos ≤ c.size then .ok () (c.moveTo pos h) else .error .outOfBounds c

/-- Moves to the next multiple of `alignment`. -/
def align (alignment : Nat) : Reader Unit := fun c =>
  skip ((alignment - c.pos % alignment) % alignment) c

def byte : Reader UInt8 := fun c =>
  match h : c.rest with
  | [] => .error .outOfBounds c
  | b :: _ => .ok b (c.advance 1 (by rw [← c.length_rest, h]; exact Nat.le_add_left ..))

/-- The next `n` bytes. -/
def bytes (n : Nat) : Reader (List UInt8) := fun c =>
  if h : n ≤ c.remaining then .ok (c.rest.take n) (c.advance n h) else .error .outOfBounds c

/-- The number in the next `size` bytes. -/
def word (size : Nat) : Reader Nat := do
  return Little.decode (← bytes size)

def uint16 : Reader UInt16 := do return UInt16.ofNat (← word 2)

def uint32 : Reader UInt32 := do return UInt32.ofNat (← word 4)

def uint64 : Reader UInt64 := do return UInt64.ofNat (← word 8)

def int8 : Reader Int8 := do return (← byte).toInt8

def int16 : Reader Int16 := do return (← uint16).toInt16

def int32 : Reader Int32 := do return (← uint32).toInt32

def int64 : Reader Int64 := do return (← uint64).toInt64

/-- Reads `n` values onto `done`, which holds earlier ones in reverse. -/
def timesOnto (r : Reader α) : Nat → List α → Reader (List α)
  | 0, done => fun c => .ok done.reverse c
  | n + 1, done => fun c =>
    match r c with
    | .ok a c => timesOnto r n (a :: done) c
    | .error fault c => .error fault c

/-- Reads `n` values. -/
def times (n : Nat) (r : Reader α) : Reader (List α) :=
  timesOnto r n []

/-- Reads all of `data` by `r`, as far as `r` goes. -/
def run (r : Reader α) (data : List UInt8) : Except Fault α :=
  match r (Cursor.start data) with
  | .ok a _ => .ok a
  | .error fault _ => .error fault

end Reader

end CilProbes
