import CilProbes.Bytes.Field
import CilProbes.Proofs.Bytes.Sized
import CilProbes.Proofs.Bytes.Taken
import CilProbes.Proofs.Machine.Words

/-!
# Scanning bytes

The readers of bytes, words, integers of variable size, strings, blobs and lists, as a machine does it: every position is
computed in a word, every piece is cut out of the data, and the parts of a number are shifted to their places. These scans
stay in range, whatever the data (`follows_compressed`, `follows_string` and their siblings).
-/

namespace CilProbes.Machine

variable {α β : Type}

/-! ## Pieces -/

/-- The position `n` bytes further on; it is a fault if the data or the word ends before. -/
def stopAfter (data : List UInt8) (pos n : Nat) : Checked Nat := do
  let stop ← addOr .outOfBounds sizeBits pos n
  if stop ≤ data.length then return stop else throw .outOfBounds

def bytes (n : Nat) : Scan (List UInt8) := do
  let data ← read
  let pos ← get
  let stop ← stopAfter data pos n
  let piece ← slice data pos stop
  set stop
  return piece

def remaining : Scan Nat := do
  return (← read).length - (← get)

/-- The number in the next `size` bytes. -/
def word (size : Nat) : Scan Nat := do
  return Little.decode (← bytes size)

def byte : Scan UInt8 := do return UInt8.ofNat (← word 1)

def uint16 : Scan UInt16 := do return UInt16.ofNat (← word 2)

def uint32 : Scan UInt32 := do return UInt32.ofNat (← word 4)

def uint64 : Scan UInt64 := do return UInt64.ofNat (← word 8)

def int8 : Scan Int8 := do return (← byte).toInt8

def int32 : Scan Int32 := do return (← uint32).toInt32

def int64 : Scan Int64 := do return (← uint64).toInt64

/-! ## Integers of variable size -/

/-- A compressed number: the parts are put together bit by bit. -/
def compressed : Scan Nat := do
  let first ← byte
  if first.toNat &&& 0x80 = 0 then
    return first.toNat
  else if first.toNat &&& 0xC0 = 0x80 then
    let second ← byte
    return (← shiftLeft 32 (first.toNat &&& 0x3F) 8) ||| second.toNat
  else if first.toNat &&& 0xE0 = 0xC0 then
    let b1 ← byte
    let b2 ← byte
    let b3 ← byte
    return (← shiftLeft 32 (first.toNat &&& 0x1F) 24) ||| (← shiftLeft 32 b1.toNat 16) ||| (← shiftLeft 32 b2.toNat 8) |||
      b3.toNat
  else
    throw (.malformed (.compressedInteger first))

/-- A compressed signed number: its lowest bit is the sign. -/
def compressedInt : Scan Int := do
  let n ← compressed
  let magnitude := asSigned 32 (← shiftRight 32 n 1)
  if n &&& 1 = 0 then return magnitude
  let successor ← addSigned 32 magnitude 1
  neg 32 successor

/-- Groups of seven bits onto `value`, the first one shifted by `shift`; no more than `fuel` of them. -/
def sevenBitFrom : (fuel shift value : Nat) → Scan UInt32
  | 0, _, _ => (trap : Option UInt32)
  | fuel + 1, shift, value => do
    let b ← byte
    let value := value ||| (← shiftLeft 32 (b.toNat &&& 0x7F) shift)
    let shift ← add 31 shift 7
    if b.toNat &&& 0x80 = 0 then return UInt32.ofNat value
    if 32 ≤ shift then throw (.malformed (.sevenBitInteger shift))
    sevenBitFrom fuel shift value

def sevenBit : Scan UInt32 :=
  sevenBitFrom 5 0 0

/-! ## Fields -/

def string : Scan String := do
  let size ← sevenBit
  let start ← get
  let piece ← bytes size.toNat
  match Utf8.decode piece with
  | .ok text => return text
  | .error fault => throw (.malformed (.text start (← add sizeBits start size.toNat) fault))

def blob : Scan (List UInt8) := do
  let size ← compressed
  bytes size

/-- Scans `n` values onto `done`, which holds earlier ones in reverse. -/
def timesOnto (m : Scan α) : Nat → List α → Scan (List α)
  | 0, done => return done.reverse
  | n + 1, done => do timesOnto m n ((← m) :: done)

def times (n : Nat) (m : Scan α) : Scan (List α) :=
  timesOnto m n []

def list (element : Scan α) : Scan (List α) := do
  let count ← compressed
  times count element

/-- Repeats a step up to the end of the data, no more than `fuel` times. -/
def untilEnd (step : α → Scan α) : (fuel : Nat) → α → Scan α
  | 0, _ => (trap : Option α)
  | fuel + 1, a => do
    let data ← read
    let pos ← get
    if data.length ≤ pos then return a
    untilEnd step fuel (← step a)

/-! ## Staying in range -/

/-- A scan that first asks how many bytes are left. -/
theorem FollowsAt.remaining_bind {c : Cursor} {f : Nat → Scan β} {r : Reader β}
    (h : FollowsAt c (f c.remaining) r) : FollowsAt c (remaining >>= f) r := by
  refine ⟨?_, h.data⟩
  show (f (c.data.length - c.pos) c.data c.pos).run = _
  rw [← c.size_eq]
  exact h.run

theorem run_stopAfter (data : List UInt8) (pos n : Nat) (hlimit : data.length < dataLimit) : (stopAfter data pos n).run =
    some (if pos + n ≤ data.length then .ok (pos + n) else .error .outOfBounds) := by
  have hword : dataLimit < 2 ^ sizeBits := by decide
  have hsum := run_addOr .outOfBounds sizeBits pos n
  unfold stopAfter
  by_cases h : pos + n ≤ data.length
  · rw [if_pos (by omega)] at hsum
    rw [if_pos h]
    exact run_ok_bind hsum (by rw [if_pos h]; rfl)
  · rw [if_neg h]
    split at hsum
    · exact run_ok_bind hsum (by rw [if_neg h]; rfl)
    · exact run_error_bind hsum

/-- What a scan finds where a reader reads. -/
theorem Follows.run_reads {m : Scan α} {r : Reader α} (h : Follows m r) {data front tail : List UInt8} {pos : Nat} {a : α}
    (hr : Reader.Reads r front a) (hdata : data.length < dataLimit) (hpos : pos ≤ data.length)
    (hrest : data.drop pos = front ++ tail) : (m.runFrom data pos).run = some (.ok a) := by
  obtain ⟨c', hread, -, -⟩ := hr pos ((Cursor.start data).moveTo pos hpos) tail rfl hrest
  have hrun := (h ((Cursor.start data).moveTo pos hpos) hdata).runFrom
  rw [hread] at hrun
  exact hrun

theorem follows_bytes (n : Nat) : Follows (bytes n) (Reader.bytes n) := by
  intro c hc
  have hsize := c.size_eq
  have hrun := run_stopAfter c.data c.pos n (hsize ▸ hc)
  refine FollowsAt.read_bind (FollowsAt.get_bind ?_)
  by_cases hn : n ≤ c.remaining
  · have hstop : c.pos + n ≤ c.data.length := by
      have hpos := c.pos_le
      unfold Cursor.remaining at hn
      omega
    rw [if_pos hstop] at hrun
    refine FollowsAt.checked_bind hrun (FollowsAt.lift_bind (slice_eq (Nat.le_add_right ..) hstop) ?_)
    rw [Nat.add_sub_cancel_left, ← c.rest_eq]
    unfold Reader.bytes
    refine ⟨?_, fun a c' h => by rw [dif_pos hn] at h; cases h; rfl⟩
    rw [dif_pos hn]
    rfl
  · have hstop : ¬ c.pos + n ≤ c.data.length := by
      unfold Cursor.remaining at hn
      omega
    rw [if_neg hstop] at hrun
    exact FollowsAt.checked_error hrun (dif_neg hn)

theorem follows_word (size : Nat) : Follows (word size) (Reader.word size) :=
  (follows_bytes size).bind_pure

theorem follows_uint16 : Follows uint16 Reader.uint16 :=
  (follows_word 2).bind_pure

theorem follows_uint32 : Follows uint32 Reader.uint32 :=
  (follows_word 4).bind_pure

theorem follows_uint64 : Follows uint64 Reader.uint64 :=
  (follows_word 8).bind_pure

/-- A byte is a word of one byte. -/
theorem reader_byte_eq : Reader.byte = (do return UInt8.ofNat (← Reader.word 1)) := by
  funext c
  unfold Reader.byte
  split
  · next hrest =>
    have hn : ¬ 1 ≤ c.remaining := by rw [← c.length_rest, hrest]; decide
    have hword : Reader.word 1 c = .error .outOfBounds c := edit_bind_of_error (dif_neg hn)
    exact (edit_bind_of_error hword).symm
  · next b rest hrest =>
    have hn : 1 ≤ c.remaining := by rw [← c.length_rest, hrest]; exact Nat.le_add_left ..
    have hbytes : Reader.bytes 1 c = .ok [b] (c.advance 1 hn) := by
      unfold Reader.bytes
      rw [dif_pos hn, hrest]
      rfl
    have hword : Reader.word 1 c = .ok (Little.decode [b]) (c.advance 1 hn) := edit_bind_of_ok hbytes
    rw [edit_bind_of_ok hword]
    show _ = EStateM.Result.ok (UInt8.ofNat (b.toNat + 256 * 0)) _
    rw [Nat.mul_zero, Nat.add_zero, UInt8.ofNat_toNat]

theorem follows_byte : Follows byte Reader.byte := by
  rw [reader_byte_eq]
  exact (follows_word 1).bind_pure

theorem follows_int8 : Follows int8 Reader.int8 :=
  follows_byte.bind_pure

theorem follows_int32 : Follows int32 Reader.int32 :=
  follows_uint32.bind_pure

theorem follows_int64 : Follows int64 Reader.int64 :=
  follows_uint64.bind_pure

/-- The tag of a compressed number, and what it leaves of the first byte. -/
theorem tag_eq (b : UInt8) : (b.toNat &&& 0x80 = 0 ↔ b < 0x80) ∧
    (¬ b < 0x80 → (b.toNat &&& 0xC0 = 0x80 ↔ b < 0xC0) ∧ (b < 0xC0 → b.toNat &&& 0x3F = b.toNat - 0x80)) ∧
    (¬ b < 0xC0 → (b.toNat &&& 0xE0 = 0xC0 ↔ b < 0xE0) ∧ (b < 0xE0 → b.toNat &&& 0x1F = b.toNat - 0xC0)) := by
  have hall : ∀ n : Fin 256, (UInt8.ofNat n).toNat &&& 0x80 = 0 ↔ UInt8.ofNat n < 0x80 := by decide +kernel
  have hall' : ∀ n : Fin 256, ¬ UInt8.ofNat n < 0x80 → ((UInt8.ofNat n).toNat &&& 0xC0 = 0x80 ↔ UInt8.ofNat n < 0xC0) ∧
      (UInt8.ofNat n < 0xC0 → (UInt8.ofNat n).toNat &&& 0x3F = (UInt8.ofNat n).toNat - 0x80) := by decide +kernel
  have hall'' : ∀ n : Fin 256, ¬ UInt8.ofNat n < 0xC0 → ((UInt8.ofNat n).toNat &&& 0xE0 = 0xC0 ↔ UInt8.ofNat n < 0xE0) ∧
      (UInt8.ofNat n < 0xE0 → (UInt8.ofNat n).toNat &&& 0x1F = (UInt8.ofNat n).toNat - 0xC0) := by decide +kernel
  have h := hall ⟨b.toNat, b.toNat_lt⟩
  have h' := hall' ⟨b.toNat, b.toNat_lt⟩
  have h'' := hall'' ⟨b.toNat, b.toNat_lt⟩
  rw [UInt8.ofNat_toNat] at h h' h''
  exact ⟨h, h', h''⟩

theorem follows_compressed : Follows compressed Reader.compressed := by
  unfold compressed Reader.compressed
  refine follows_byte.bind fun first => ?_
  have hfirst := first.toNat_lt
  obtain ⟨hone, htwo, hfour⟩ := tag_eq first
  by_cases h1 : first < 0x80
  · rw [if_pos h1, if_pos (hone.mpr h1)]
    exact .pure _
  · obtain ⟨htwo, hvalue⟩ := htwo h1
    rw [if_neg h1, if_neg (mt hone.mp h1)]
    by_cases h2 : first < 0xC0
    · rw [if_pos h2, if_pos (htwo.mpr h2)]
      refine follows_byte.bind fun second c hc => ?_
      have hsecond := second.toNat_lt
      refine FollowsAt.lift_bind (shiftLeft_eq (by decide) (by rw [hvalue h2]; omega)) ?_
      rw [or_eq_add hsecond, hvalue h2]
      exact .pure _
    · obtain ⟨hfour, hvalue⟩ := hfour h2
      rw [if_neg h2, if_neg (mt htwo.mp h2)]
      by_cases h3 : first < 0xE0
      · rw [if_pos h3, if_pos (hfour.mpr h3)]
        have hsmall : first.toNat - 0xC0 < 0x20 := by
          have := UInt8.lt_iff_toNat_lt.mp h3
          have : (0xE0 : UInt8).toNat = 0xE0 := rfl
          omega
        refine follows_byte.bind fun b1 => follows_byte.bind fun b2 => follows_byte.bind fun b3 c hc => ?_
        have hb1 := b1.toNat_lt
        have hb2 := b2.toNat_lt
        have hb3 := b3.toNat_lt
        refine FollowsAt.lift_bind (shiftLeft_eq (by decide) (by rw [hvalue h3]; omega)) ?_
        refine FollowsAt.lift_bind (shiftLeft_eq (by decide) (by omega)) ?_
        refine FollowsAt.lift_bind (shiftLeft_eq (by decide) (by omega)) ?_
        have h8 : b2.toNat * 2 ^ 8 ||| b3.toNat = b2.toNat * 2 ^ 8 + b3.toNat := or_eq_add hb3
        have h16 : b1.toNat * 2 ^ 16 ||| (b2.toNat * 2 ^ 8 + b3.toNat) = b1.toNat * 2 ^ 16 + (b2.toNat * 2 ^ 8 + b3.toNat) :=
          or_eq_add (by omega)
        rw [hvalue h3, Nat.or_assoc, Nat.or_assoc, h8, h16, or_eq_add (by omega), ← Nat.add_assoc, ← Nat.add_assoc]
        exact .pure _
      · rw [if_neg h3, if_neg (mt hfour.mp h3)]
        exact .fail _

theorem compressed_lt {n : Nat} {c c' : Cursor} (h : Reader.compressed c = .ok n c') : n < 2 ^ 29 := by
  obtain ⟨out, hout, -⟩ := Reader.compressed_covers h
  unfold Compressed.encode at hout
  split_ifs at hout with h1 h2 h3
  · omega
  · omega
  · have : Compressed.limit = 0x1FFFFFFF := rfl
    omega

theorem follows_compressedInt : Follows compressedInt Reader.compressedInt := by
  intro c hc
  refine (follows_compressed c hc).bind fun n c' hn _ => ?_
  have hlt := compressed_lt hn
  refine FollowsAt.lift_bind (shiftRight_eq (by decide)) ?_
  rw [Nat.pow_one, asSigned_eq (show n / 2 < 2 ^ (32 - 1) by omega), Nat.and_one_is_mod]
  unfold Compressed.unzigzag
  split
  · exact .pure _
  · refine FollowsAt.lift_bind (signed_eq (by omega) (by omega)) ?_
    exact .lift (signed_eq (by omega) (by omega))

/-- A group of seven bits onto groups before it; bits past the thirty-second are dropped. -/
theorem or_group {b shift value : Nat} (hshift : shift ≤ 32) (hvalue : value < 2 ^ shift) :
    value ||| (b * 2 ^ shift) % 2 ^ 32 = value + (b * 2 ^ shift) % 2 ^ 32 := by
  have hword : 2 ^ 32 = 2 ^ (32 - shift) * 2 ^ shift := by rw [← Nat.pow_add, Nat.sub_add_cancel hshift]
  rw [hword, Nat.mul_mod_mul_right, Nat.or_comm, or_eq_add hvalue, Nat.add_comm]

theorem follows_sevenBitFrom {left shift value : Nat} (hleft : 0 < left) (hshift : shift + 7 * left = 35)
    (hvalue : value < 2 ^ shift) : Follows (sevenBitFrom left shift value) (Reader.sevenBitFrom left shift value) := by
  induction left generalizing shift value with
  | zero => exact absurd hleft (Nat.lt_irrefl 0)
  | succ left ih =>
    refine follows_byte.bind fun b c hc => ?_
    dsimp only
    have hgroup : b.toNat &&& 0x7F = b.toNat % 128 := Nat.and_two_pow_sub_one_eq_mod b.toNat 7
    have hshifted : shiftLeft 32 (b.toNat &&& 0x7F) shift = some (b.toNat % 128 * 2 ^ shift % 2 ^ 32) := by
      unfold shiftLeft
      rw [if_pos (by omega), hgroup, Nat.shiftLeft_eq]
    refine FollowsAt.lift_bind hshifted (FollowsAt.lift_bind (add_eq (by omega)) ?_)
    rw [or_group (by omega) hvalue]
    by_cases hlast : b < 0x80
    · rw [if_pos hlast, if_pos ((tag_eq b).1.mpr hlast)]
      have hsame : UInt32.ofNat (value + b.toNat % 128 * 2 ^ shift % 2 ^ 32) =
          UInt32.ofNat (value + b.toNat % 128 * 2 ^ shift) :=
        UInt32.toNat_inj.mp (by simp only [UInt32.toNat_ofNat', Nat.add_mod_mod])
      rw [hsame]
      exact .pure _
    · rw [if_neg hlast, if_neg (mt (tag_eq b).1.mp hlast)]
      rcases Nat.eq_zero_or_pos left with rfl | hmore
      · rw [if_pos (by omega)]
        exact .fail _
      · rw [if_neg (by omega)]
        have hpow : 2 ^ shift ≤ 2 ^ 21 := Nat.pow_le_pow_right (by decide) (by omega)
        have hgroups : b.toNat % 128 * 2 ^ shift ≤ 127 * 2 ^ shift := Nat.mul_le_mul_right _ (by omega)
        rw [Nat.mod_eq_of_lt (by omega)]
        exact ih hmore (by omega) (by rw [Nat.pow_add]; omega) c hc

theorem follows_sevenBit : Follows sevenBit Reader.sevenBit :=
  follows_sevenBitFrom (by decide) rfl (by decide)

theorem follows_string : Follows string Reader.string := by
  refine follows_sevenBit.bind fun size c hc => FollowsAt.get_bind (FollowsAt.pos_bind ?_)
  refine (follows_bytes size.toNat c hc).bind fun piece c' hpiece hdata => ?_
  cases Utf8.decode piece with
  | ok text => exact .pure text
  | error fault =>
    have hsize := size.toNat_lt
    have hpos := c.pos_le
    have hlimit : dataLimit = 2 ^ 29 := rfl
    exact FollowsAt.lift_bind (add_eq (by unfold sizeBits; omega)) (.fail _)

theorem follows_blob : Follows blob Reader.blob :=
  follows_compressed.bind fun size => follows_bytes size

theorem blob_lt {piece : List UInt8} {c c' : Cursor} (h : Reader.blob c = .ok piece c') : piece.length < dataLimit := by
  obtain ⟨size, c₁, hsize, h⟩ := edit_bind_ok.mp h
  rw [(Reader.bytes_took h).1]
  exact compressed_lt hsize

theorem follows_timesOnto {m : Scan α} {r : Reader α} (h : Follows m r) (n : Nat) (done : List α) :
    Follows (timesOnto m n done) (Reader.timesOnto r n done) := by
  induction n generalizing done with
  | zero => exact .pure _
  | succ n ih =>
    rw [Reader.timesOnto_succ]
    exact h.bind fun a => ih (a :: done)

theorem follows_times {m : Scan α} {r : Reader α} (h : Follows m r) (n : Nat) :
    Follows (times n m) (Reader.times n r) :=
  follows_timesOnto h n []

theorem follows_list {m : Scan α} {r : Reader α} (h : Follows m r) : Follows (list m) (Reader.list r) :=
  follows_compressed.bind fun count => follows_times h count

theorem rest_eq_nil_iff {c : Cursor} : c.rest = [] ↔ c.data.length ≤ c.pos := by
  rw [c.rest_eq, List.drop_eq_nil_iff]

/-- A reader that repeats a step, where every step takes at least one byte. -/
theorem follows_untilEnd {step : α → Scan α} {s : α → Reader α} {r : Nat → α → Reader β} {f : α → β}
    (hstep : ∀ a, Follows (step a) (s a)) (hless : ∀ a c a' c', s a c = .ok a' c' → c'.remaining < c.remaining)
    (hend : ∀ n a c, c.rest = [] → r n a c = .ok (f a) c)
    (hmore : ∀ n a c, c.rest ≠ [] → r (n + 1) a c = (s a >>= r n) c) {fuel left : Nat} {c : Cursor} (a : α)
    (hc : c.size < dataLimit) (hfuel : c.remaining < fuel) (hleft : c.remaining ≤ left) :
    FollowsAt c (do return f (← untilEnd step fuel a)) (r left a) := by
  induction fuel generalizing left c a with
  | zero => exact absurd hfuel (Nat.not_lt_zero _)
  | succ fuel ih =>
    rw [untilEnd, bind_assoc]
    refine FollowsAt.read_bind ?_
    rw [bind_assoc]
    refine FollowsAt.get_bind ?_
    by_cases hrest : c.data.length ≤ c.pos
    · rw [if_pos hrest, pure_bind]
      exact (FollowsAt.pure _).congr (hend left a c (rest_eq_nil_iff.mpr hrest)).symm
    · rw [if_neg hrest, bind_assoc]
      have hnonempty : c.rest ≠ [] := mt rest_eq_nil_iff.mp hrest
      cases left with
      | zero => exact absurd (List.length_eq_zero_iff.mp (c.length_rest ▸ Nat.le_zero.mp hleft)) hnonempty
      | succ left =>
        refine ((hstep a c hc).bind fun a' c' ha hdata => ?_).congr (hmore left a c hnonempty).symm
        have hpos := hless a c a' c' ha
        exact ih a' (by rwa [c'.size_eq, hdata, ← c.size_eq]) (by omega) (by omega)

end CilProbes.Machine
