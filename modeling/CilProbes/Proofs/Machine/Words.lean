import CilProbes.Bytes.Cursor
import CilProbes.Proofs.Outcome
import Mathlib.Algebra.Ring.Int.Defs
import Mathlib.Algebra.Ring.Nat

/-!
# Machine words

The numbers of a machine have a size, and its data has an end. `Machine.add` and its siblings have no result (`none`)
where a machine has none: where a sum or a product outgrows its word, a difference is negative, a shift is as wide as its
word, or an index is past the end of the data.

A `Checked` computation gives a value or a fault, or leaves the range of the machine. A `Scan` is one that reads: it has
the data and a position in it. `Follows` says of a scan that it stays in range and does what a reader does.
-/

namespace CilProbes.Machine

variable {α β : Type}

/-! ## Arithmetic -/

/-- Number of bits of sizes, of positions and of indices. -/
def sizeBits : Nat := 64

def add (bits a b : Nat) : Option Nat :=
  if a + b < 2 ^ bits then some (a + b) else none

def sub (a b : Nat) : Option Nat :=
  if b ≤ a then some (a - b) else none

def mul (bits a b : Nat) : Option Nat :=
  if a * b < 2 ^ bits then some (a * b) else none

/-- Shifts to higher bits; the bits that leave the word are lost. -/
def shiftLeft (bits a count : Nat) : Option Nat :=
  if count < bits then some ((a <<< count) % 2 ^ bits) else none

def shiftRight (bits a count : Nat) : Option Nat :=
  if count < bits then some (a >>> count) else none

/-- A signed number of the given size. -/
def signed (bits : Nat) (v : Int) : Option Int :=
  if -2 ^ (bits - 1) ≤ v ∧ v < 2 ^ (bits - 1) then some v else none

def addSigned (bits : Nat) (a b : Int) : Option Int :=
  signed bits (a + b)

def neg (bits : Nat) (a : Int) : Option Int :=
  signed bits (-a)

/-- The bits of an unsigned number as those of a signed one. -/
def asSigned (bits n : Nat) : Int :=
  if n < 2 ^ (bits - 1) then n else n - 2 ^ bits

/-- The bytes from one position up to another. -/
def slice (data : List UInt8) (start stop : Nat) : Option (List UInt8) :=
  if start ≤ stop ∧ stop ≤ data.length then some ((data.drop start).take (stop - start)) else none

/-- The byte at an index. -/
def byteAt (data : List UInt8) (i : Nat) : Option UInt8 :=
  data[i]?

theorem add_eq {bits a b : Nat} (h : a + b < 2 ^ bits) : add bits a b = some (a + b) :=
  if_pos h

theorem sub_eq {a b : Nat} (h : b ≤ a) : sub a b = some (a - b) :=
  if_pos h

theorem mul_eq {bits a b : Nat} (h : a * b < 2 ^ bits) : mul bits a b = some (a * b) :=
  if_pos h

theorem shiftRight_eq {bits a count : Nat} (h : count < bits) : shiftRight bits a count = some (a / 2 ^ count) := by
  unfold shiftRight
  rw [if_pos h, Nat.shiftRight_eq_div_pow]

/-- A shift that loses no bits. -/
theorem shiftLeft_eq {bits a count : Nat} (h : count < bits) (ha : a * 2 ^ count < 2 ^ bits) :
    shiftLeft bits a count = some (a * 2 ^ count) := by
  unfold shiftLeft
  rw [if_pos h, Nat.shiftLeft_eq, Nat.mod_eq_of_lt ha]

theorem signed_eq {bits : Nat} {v : Int} (h : -2 ^ (bits - 1) ≤ v) (h' : v < 2 ^ (bits - 1)) : signed bits v = some v :=
  if_pos ⟨h, h'⟩

theorem asSigned_eq {bits n : Nat} (h : n < 2 ^ (bits - 1)) : asSigned bits n = n :=
  if_pos h

theorem slice_eq {data : List UInt8} {start stop : Nat} (h : start ≤ stop) (h' : stop ≤ data.length) :
    slice data start stop = some ((data.drop start).take (stop - start)) :=
  if_pos ⟨h, h'⟩

/-- Bits above those of another number. -/
theorem or_eq_add {a b count : Nat} (h : b < 2 ^ count) : a * 2 ^ count ||| b = a * 2 ^ count + b := by
  rw [← Nat.shiftLeft_eq, Nat.shiftLeft_add_eq_or_of_lt h]

/-! ## Computations -/

/-- A computation that may fail, and that has no outcome where it leaves the range of the machine. -/
abbrev Checked := ExceptT Fault Option

/-- Reads from data at a position. -/
abbrev Scan := ReaderT (List UInt8) (StateT Nat Checked)

/-- No outcome. -/
def trap {α : Type} : Option α := none

/-- A sum; it is a fault if the word is too small for it. -/
def addOr (fault : Fault) (bits a b : Nat) : Checked Nat :=
  match add bits a b with
  | some sum => pure sum
  | none => throw fault

/-- Sizes of data are below this. -/
def dataLimit : Nat := 2 ^ 29

/-- Scans some data from a position on, as far as the scan goes. -/
def Scan.runFrom (m : Scan α) (data : List UInt8) (pos : Nat) : Checked α := do
  let (a, _) ← m data pos
  return a

/-- The value with the position after it, or the fault. -/
def outcome : EStateM.Result Fault Cursor α → Except Fault (α × Nat)
  | .ok a c => .ok (a, c.pos)
  | .error fault _ => .error fault

/-- From a cursor on, the scan stays in range and does what the reader does. -/
structure FollowsAt (c : Cursor) (m : Scan α) (r : Reader α) : Prop where
  run : (m c.data c.pos).run = some (outcome (r c))
  data : ∀ a c', r c = .ok a c' → c'.data = c.data

/-- On data of less than `dataLimit` bytes the scan stays in range and does what the reader does. -/
def Follows (m : Scan α) (r : Reader α) : Prop :=
  ∀ c : Cursor, c.size < dataLimit → FollowsAt c m r

variable {c : Cursor} {m m' : Scan α} {r r' : Reader α} {f : α → Scan β} {g : α → Reader β}

theorem run_bind {x : Checked α} {y : α → Checked β} {e : Except Fault α} {z : α → Except Fault β} (h : x.run = some e)
    (hy : ∀ a, e = .ok a → (y a).run = some (z a)) : (x >>= y).run = some (e >>= z) := by
  show Option.bind x.run _ = _
  rw [h]
  cases e with
  | error fault => rfl
  | ok a => exact hy a rfl

theorem run_ok_bind {x : Checked α} {y : α → Checked β} {a : α} {e : Except Fault β} (h : x.run = some (.ok a))
    (hy : (y a).run = some e) : (x >>= y).run = some e :=
  run_bind (z := fun _ => e) h fun _ hb => by cases hb; exact hy

theorem run_error_bind {x : Checked α} {y : α → Checked β} {fault : Fault} (h : x.run = some (.error fault)) :
    (x >>= y).run = some (.error fault) :=
  run_bind (z := fun _ => .error fault) h fun _ hb => by cases hb

theorem run_lift_bind {o : Option α} {y : α → Checked β} {a : α} {e : Except Fault β} (h : o = some a)
    (hy : (y a).run = some e) : ((liftM o : Checked α) >>= y).run = some e := by
  subst h
  exact hy

theorem run_ofExcept (e : Except Fault α) : (MonadExcept.ofExcept e : Checked α).run = some e := by
  cases e <;> rfl

theorem run_addOr (fault : Fault) (bits a b : Nat) :
    (addOr fault bits a b).run = some (if a + b < 2 ^ bits then .ok (a + b) else .error fault) := by
  unfold addOr add
  by_cases h : a + b < 2 ^ bits
  · rw [if_pos h, if_pos h]
    rfl
  · rw [if_neg h, if_neg h]
    rfl

theorem scan_bind (data : List UInt8) (pos : Nat) : (m >>= f) data pos = m data pos >>= fun p => f p.1 data p.2 :=
  rfl

namespace FollowsAt

theorem bind (h : FollowsAt c m r)
    (hf : ∀ a c', r c = .ok a c' → c'.data = c.data → FollowsAt c' (f a) (g a)) : FollowsAt c (m >>= f) (r >>= g) := by
  cases hr : r c with
  | error fault c' =>
    refine ⟨?_, fun b c'' hb => by rw [edit_bind_of_error hr] at hb; cases hb⟩
    rw [edit_bind_of_error hr, scan_bind]
    have hrun := h.run
    rw [hr] at hrun
    exact run_bind (e := .error fault) (z := fun _ => .error fault) hrun fun a ha => by cases ha
  | ok a c' =>
    have hdata := h.data a c' hr
    have hnext := hf a c' hr hdata
    have hrun := h.run
    rw [hr] at hrun
    refine ⟨?_, fun b c'' hb => ?_⟩
    · rw [edit_bind_of_ok hr, scan_bind]
      refine run_bind (e := .ok (a, c'.pos)) (z := fun _ => outcome (g a c')) hrun fun p hp => ?_
      cases hp
      have hrun' := hnext.run
      rwa [hdata] at hrun'
    · rw [edit_bind_of_ok hr] at hb
      rw [hnext.data b c'' hb, hdata]

theorem pure (a : α) : FollowsAt c (Pure.pure a) (Pure.pure a) :=
  ⟨rfl, fun b c' h => by cases h; rfl⟩

theorem throw (fault : Fault) : FollowsAt c (MonadExcept.throw fault : Scan α) (MonadExcept.throw fault) :=
  ⟨rfl, fun b c' h => by cases h⟩

/-- A scan that fails early, where the reader fails the same way later. -/
theorem throw_bind {fault : Fault} {r : Reader β} {c' : Cursor} (h : r c = .error fault c') :
    FollowsAt c ((MonadExcept.throw fault : Scan α) >>= f) r :=
  ⟨by rw [h]; rfl, fun a c' ha => by rw [h] at ha; cases ha⟩

theorem fail (cause : Malformation) :
    FollowsAt c (MonadExcept.throw (Fault.malformed cause) : Scan α) (Reader.fail cause) :=
  throw _

/-- What follows a fault does not matter. -/
theorem fail_bind (cause : Malformation) :
    FollowsAt c ((MonadExcept.throw (Fault.malformed cause) : Scan α) >>= f) (Reader.fail cause >>= g) :=
  throw_bind (edit_bind_of_error (t := c) rfl)

/-- A scan that first computes with machine words. -/
theorem lift_bind {o : Option α} {a : α} {r : Reader β} (h : o = some a) (hf : FollowsAt c (f a) r) :
    FollowsAt c ((liftM o : Scan α) >>= f) r := by
  subst h
  exact ⟨hf.run, hf.data⟩

theorem lift {o : Option α} {a : α} (h : o = some a) : FollowsAt c (liftM o : Scan α) (Pure.pure a) := by
  subst h
  exact pure a

theorem checked_bind {x : Checked α} {a : α} {r : Reader β} (h : x.run = some (.ok a)) (hf : FollowsAt c (f a) r) :
    FollowsAt c ((liftM x : Scan α) >>= f) r := by
  obtain rfl : x = Pure.pure a := h
  exact ⟨hf.run, hf.data⟩

theorem checked_error {x : Checked α} {fault : Fault} {r : Reader β} {c' : Cursor} (h : x.run = some (.error fault))
    (hr : r c = .error fault c') : FollowsAt c ((liftM x : Scan α) >>= f) r := by
  obtain rfl : x = MonadExcept.throw fault := h
  exact ⟨by rw [hr]; rfl, fun a c' ha => by rw [hr] at ha; cases ha⟩

theorem get_bind {f : Nat → Scan β} {r : Reader β} (h : FollowsAt c (f c.pos) r) : FollowsAt c (MonadState.get >>= f) r :=
  ⟨h.run, h.data⟩

theorem read_bind {f : List UInt8 → Scan β} {r : Reader β} (h : FollowsAt c (f c.data) r) :
    FollowsAt c (MonadReader.read >>= f) r :=
  ⟨h.run, h.data⟩

/-- A reader that first asks for its position. -/
theorem pos_bind {m : Scan β} {g : Nat → Reader β} (h : FollowsAt c m (g c.pos)) : FollowsAt c m (Reader.pos >>= g) :=
  ⟨h.run, h.data⟩

theorem ofExcept {x : Checked α} {e : Except Fault α} (h : x.run = some e) :
    FollowsAt c (liftM x : Scan α) (Edit.ofExcept e) := by
  constructor
  · show Option.bind x.run _ = _
    rw [h]
    cases e <;> rfl
  · intro a c' ha
    rw [(ofExcept_ok ha).2]

theorem congr (h : FollowsAt c m r) (hr : r c = r' c) : FollowsAt c m r' := by
  refine ⟨?_, fun a c' ha => h.data a c' (hr.trans ha)⟩
  rw [← hr]
  exact h.run

theorem runFrom (h : FollowsAt c m r) : (m.runFrom c.data c.pos).run = some (outcome (r c) >>= fun p => .ok p.1) :=
  run_bind h.run fun _ _ => rfl

/-- A scan of some data from its start. -/
theorem run_start {data : List UInt8} (h : FollowsAt (Cursor.start data) m r) : (m.runFrom data 0).run = some (r.run data) := by
  have hresult : r.run data = outcome (r (Cursor.start data)) >>= fun p => .ok p.1 := by
    unfold Reader.run
    cases r (Cursor.start data) <;> rfl
  rw [hresult]
  exact h.runFrom

end FollowsAt

namespace Follows

theorem bind (h : Follows m r) (hf : ∀ a, Follows (f a) (g a)) : Follows (m >>= f) (r >>= g) :=
  fun c hc => (h c hc).bind fun a c' _ hdata => hf a c' (by rwa [c'.size_eq, hdata, ← c.size_eq])

/-- What follows may rely on a property of what was read. -/
theorem bind_such {P : α → Prop} (h : Follows m r) (hP : ∀ c a c', r c = .ok a c' → P a)
    (hf : ∀ a, P a → Follows (f a) (g a)) : Follows (m >>= f) (r >>= g) :=
  fun c hc => (h c hc).bind fun a c' ha hdata => hf a (hP c a c' ha) c' (by rwa [c'.size_eq, hdata, ← c.size_eq])

theorem pure (a : α) : Follows (Pure.pure a) (Pure.pure a) :=
  fun _ _ => .pure a

theorem throw (fault : Fault) : Follows (MonadExcept.throw fault : Scan α) (MonadExcept.throw fault) :=
  fun _ _ => .throw fault

theorem fail (cause : Malformation) : Follows (MonadExcept.throw (Fault.malformed cause) : Scan α) (Reader.fail cause) :=
  throw _

/-- What follows a fault does not matter. -/
theorem fail_bind (cause : Malformation) :
    Follows ((MonadExcept.throw (Fault.malformed cause) : Scan α) >>= f) (Reader.fail cause >>= g) :=
  fun _ _ => FollowsAt.fail_bind cause

theorem ofExcept {x : Checked α} {e : Except Fault α} (h : x.run = some e) :
    Follows (liftM x : Scan α) (Edit.ofExcept e) :=
  fun _ _ => .ofExcept h

/-- A scan that computes on what another one gave. -/
theorem bind_pure {h : α → β} (hm : Follows m r) :
    Follows (m >>= fun a => Pure.pure (h a)) (r >>= fun a => Pure.pure (h a)) :=
  hm.bind fun a => pure (h a)

theorem run {data : List UInt8} (h : Follows m r) (hdata : data.length < dataLimit) :
    (m.runFrom data 0).run = some (r.run data) :=
  (h (Cursor.start data) hdata).run_start

end Follows

end CilProbes.Machine
