import CilProbes.Proofs.Bytes.Fields

/-!
# Writing fields

A `Writer` appends to the bytes that were written before. It works on words of 32 bits: it cuts a number into bytes by
shifts, folds the sign of a signed one into its lowest bit, and takes groups of seven bits until nothing is left. What it
appends are the bytes of `Compressed.encode`, `SevenBit.encode` and `Field.blob` (`compressed_eq` and its siblings).

A `FieldValue` is a field of any kind. It is read from the bytes that are written for it (`FieldValue.reads`), so a
sequence of fields is read as it was written, whatever stands before and after it (`FieldValue.readAll_of_writeAll`).
-/

namespace CilProbes

/-- An operation that appends to the bytes that were written before. -/
abbrev Writer := Edit (List UInt8)

namespace Compressed

theorem encode_of_limit_lt {n : Nat} (h : limit < n) : encode n = .error (.malformed (.compressedRange n)) := by
  have hlimit : limit = 0x1FFFFFFF := rfl
  unfold encode
  rw [if_neg (by omega), if_neg (by omega), if_neg (by omega)]

/-- The signed numbers with a compressed form. -/
theorem zigzag_le_limit {v : Int} : zigzag v ≤ limit ↔ -2 ^ 28 ≤ v ∧ v ≤ 2 ^ 28 - 1 := by
  have hlimit : limit = 0x1FFFFFFF := rfl
  unfold zigzag
  split <;> omega

end Compressed

namespace Writer

def put (piece : List UInt8) : Writer Unit := fun out => .ok () (out ++ piece)

/-- The low `size` bytes of a number. -/
def word (size n : Nat) : Writer Unit :=
  put (Little.encode size n)

/-- A compressed number. -/
def compressed (n : UInt32) : Writer Unit :=
  if n ≤ 0x7F then put [n.toUInt8]
  else if n ≤ 0x3FFF then put [(0x80 : UInt8) ||| (n >>> 8).toUInt8, n.toUInt8]
  else if n ≤ 0x1FFFFFFF then
    put [(0xC0 : UInt8) ||| (n >>> 24).toUInt8, (n >>> 16).toUInt8, (n >>> 8).toUInt8, n.toUInt8]
  else throw (.malformed (.compressedRange n.toNat))

/-- The absolute value of a signed number. -/
def magnitude (v : Int32) : UInt32 :=
  UInt32.ofNat v.toInt.natAbs

/-- A signed number with its sign in the lowest bit. -/
def folded (v : Int32) : UInt32 :=
  if 0 ≤ v then magnitude v <<< 1 else (magnitude v - 1) <<< 1 ||| 1

/-- A compressed signed number. -/
def compressedInt (v : Int32) : Writer Unit :=
  compressed (folded v)

/-- Groups of seven bits, each but the last with its high bit set. -/
def sevenBit (n : UInt32) : Writer Unit :=
  if n >>> 7 = 0 then put [(n &&& 0x7F).toUInt8]
  else do
    put [(n &&& 0x7F).toUInt8 ||| 0x80]
    sevenBit (n >>> 7)
termination_by n.toNat
decreasing_by
  next h =>
  have hne : (n >>> 7).toNat ≠ 0 := fun hzero => h (UInt32.toNat_inj.mp hzero)
  rw [UInt32.toNat_shiftRight, Nat.shiftRight_eq_div_pow] at hne ⊢
  exact Nat.div_lt_self (Nat.pos_of_ne_zero fun hzero => hne (by rw [hzero]; rfl)) (by decide)

/-- A string; the size of a text that is too long for its field is cut off. -/
def string (text : String) : Writer Unit := do
  sevenBit (UInt32.ofNat (Utf8.encode text).length)
  put (Utf8.encode text)

def blob (content : List UInt8) : Writer Unit :=
  if content.length < 0x100000000 then do
    compressed (UInt32.ofNat content.length)
    put content
  else throw (.malformed (.blobTooLarge content.length))

/-- Appends what can be written, and nothing else. -/
def emit (written : Except Fault (List UInt8)) : Writer Unit :=
  Edit.ofExcept written >>= put

variable {out out' : List UInt8}

theorem emit_ok {written : Except Fault (List UInt8)} :
    emit written out = .ok () out' ↔ ∃ piece, written = .ok piece ∧ out' = out ++ piece := by
  cases written with
  | ok piece =>
    constructor
    · intro h
      cases h
      exact ⟨piece, rfl, rfl⟩
    · rintro ⟨_, h, rfl⟩
      cases h
      rfl
  | error fault =>
    constructor
    · intro h
      cases h
    · rintro ⟨_, h, -⟩
      cases h

theorem emit_error {written : Except Fault (List UInt8)} {fault : Fault} (h : emit written out = .error fault out') :
    written = .error fault ∧ out' = out := by
  cases written with
  | ok piece => cases h
  | error found =>
    cases h
    exact ⟨rfl, rfl⟩

theorem put_put (front back : List UInt8) : (do put front; put back) = put (front ++ back) := by
  funext out
  show EStateM.Result.ok () (out ++ front ++ back) = .ok () (out ++ (front ++ back))
  rw [List.append_assoc]

/-! ## What is appended -/

/-- A byte of a number is what is left of it after a shift. -/
theorem toUInt8_shiftRight (n count : UInt32) (h : count < 32) :
    (n >>> count).toUInt8 = UInt8.ofNat (n.toNat / 2 ^ count.toNat) := by
  have hcount : count.toNat % 32 = count.toNat := Nat.mod_eq_of_lt (UInt32.lt_iff_toNat_lt.mp h)
  apply UInt8.toNat_inj.mp
  rw [UInt32.toNat_toUInt8, UInt32.toNat_shiftRight, hcount, Nat.shiftRight_eq_div_pow, UInt8.toNat_ofNat']

theorem toUInt8_eq (n : UInt32) : n.toUInt8 = UInt8.ofNat n.toNat := by
  apply UInt8.toNat_inj.mp
  rw [UInt32.toNat_toUInt8, UInt8.toNat_ofNat']

/-- A tag above the bits of a byte is added to it. -/
theorem tag_or {tag b : UInt8} (count : Nat) (htag : 2 ^ count ∣ tag.toNat) (hb : b.toNat < 2 ^ count) :
    tag ||| b = UInt8.ofNat (tag.toNat + b.toNat) := by
  obtain ⟨k, hk⟩ := htag
  have hor : (tag ||| b).toNat = tag.toNat + b.toNat := by rw [UInt8.toNat_or, hk, Nat.two_pow_add_eq_or_of_lt hb]
  rw [← hor, UInt8.ofNat_toNat]

/-- The first byte of a compressed number: a tag above the highest bits of the number. -/
theorem tag_shiftRight (tag : UInt8) (n count : UInt32) (bits : Nat) (htag : 2 ^ bits ∣ tag.toNat) (hbits : 2 ^ bits ≤ 256)
    (hcount : count < 32) (hn : n.toNat / 2 ^ count.toNat < 2 ^ bits) :
    tag ||| (n >>> count).toUInt8 = UInt8.ofNat (tag.toNat + n.toNat / 2 ^ count.toNat) := by
  have hhigh : (n >>> count).toUInt8.toNat = n.toNat / 2 ^ count.toNat := by
    rw [toUInt8_shiftRight n count hcount, UInt8.toNat_ofNat']
    exact Nat.mod_eq_of_lt (Nat.lt_of_lt_of_le hn hbits)
  rw [tag_or bits htag (by rwa [hhigh]), hhigh]

theorem compressed_eq (n : UInt32) : compressed n = emit (Compressed.encode n.toNat) := by
  have hone : n ≤ 0x7F ↔ n.toNat ≤ 0x7F := UInt32.le_iff_toNat_le
  have htwo : n ≤ 0x3FFF ↔ n.toNat ≤ 0x3FFF := UInt32.le_iff_toNat_le
  have hfour : n ≤ 0x1FFFFFFF ↔ n.toNat ≤ Compressed.limit := UInt32.le_iff_toNat_le
  have hlimit : Compressed.limit = 0x1FFFFFFF := rfl
  unfold compressed Compressed.encode
  simp only [hone, htwo, hfour]
  split_ifs with h1 h2 h3
  · rw [toUInt8_eq]
    rfl
  · have htag := tag_shiftRight 0x80 n 8 6 (by decide) (by decide) (by decide) (show n.toNat / 2 ^ 8 < 2 ^ 6 by omega)
    rw [htag, toUInt8_eq]
    rfl
  · have htag := tag_shiftRight 0xC0 n 24 5 (by decide) (by decide) (by decide) (show n.toNat / 2 ^ 24 < 2 ^ 5 by omega)
    rw [htag, toUInt8_shiftRight n 16 (by decide), toUInt8_shiftRight n 8 (by decide), toUInt8_eq]
    rfl
  · rfl

/-- No bit of a signed number is lost. -/
theorem toNat_folded (v : Int32) : (folded v).toNat = Compressed.zigzag v.toInt := by
  have hlow := v.le_toInt
  have hhigh := v.toInt_lt
  have hmagnitude : (magnitude v).toNat = v.toInt.natAbs := by
    unfold magnitude
    rw [UInt32.toNat_ofNat']
    omega
  have hsign : 0 ≤ v ↔ 0 ≤ v.toInt := Int32.le_iff_toInt_le
  unfold folded Compressed.zigzag
  simp only [hsign]
  split
  · next hv =>
    rw [UInt32.toNat_shiftLeft, hmagnitude]
    show v.toInt.natAbs <<< 1 % 2 ^ 32 = _
    rw [Nat.shiftLeft_eq]
    omega
  · next hv =>
    have hless : (magnitude v - 1).toNat = v.toInt.natAbs - 1 := by
      have hpos : 1 ≤ magnitude v := by
        rw [UInt32.le_iff_toNat_le, hmagnitude]
        show 1 ≤ v.toInt.natAbs
        omega
      rw [UInt32.toNat_sub_of_le _ _ hpos, hmagnitude]
      rfl
    rw [UInt32.toNat_or, UInt32.toNat_shiftLeft, hless]
    show (v.toInt.natAbs - 1) <<< 1 % 2 ^ 32 ||| 1 = _
    rw [Nat.shiftLeft_eq, Nat.mod_eq_of_lt (by omega), Nat.mul_comm _ (2 ^ 1), ← Nat.two_pow_add_eq_or_of_lt (by decide)]
    omega

theorem compressedInt_eq (v : Int32) : compressedInt v = emit (Compressed.encodeInt v.toInt) := by
  unfold compressedInt Compressed.encodeInt
  rw [compressed_eq, toNat_folded]

theorem sevenBit_eq (n : UInt32) : sevenBit n = put (SevenBit.encode n.toNat) := by
  have hgroup : ∀ m : UInt32, (m &&& 0x7F).toUInt8.toNat = m.toNat % 128 := by
    intro m
    have hand : m.toNat &&& 127 = m.toNat % 128 := Nat.and_two_pow_sub_one_eq_mod m.toNat 7
    rw [UInt32.toNat_toUInt8, UInt32.toNat_and]
    show (m.toNat &&& 127) % 2 ^ 8 = m.toNat % 128
    omega
  have hrest : ∀ m : UInt32, (m >>> 7).toNat = m.toNat / 128 := fun m => by
    rw [UInt32.toNat_shiftRight]
    exact Nat.shiftRight_eq_div_pow ..
  have hlast : ∀ m : UInt32, m >>> 7 = 0 ↔ m.toNat < 128 := by
    intro m
    rw [← UInt32.toNat_inj, hrest]
    show m.toNat / 128 = 0 ↔ _
    omega
  induction n using sevenBit.induct with
  | case1 n h =>
    have hbyte : (n &&& 0x7F).toUInt8 = UInt8.ofNat n.toNat := by
      apply UInt8.toNat_inj.mp
      have := (hlast n).mp h
      rw [hgroup, UInt8.toNat_ofNat']
      omega
    rw [sevenBit, if_pos h, SevenBit.encode, if_pos ((hlast n).mp h), hbyte]
  | case2 n h ih =>
    have hbyte : (n &&& 0x7F).toUInt8 ||| 0x80 = UInt8.ofNat (128 + n.toNat % 128) := by
      rw [UInt8.or_comm, tag_or 7 (by decide) (by rw [hgroup]; exact Nat.mod_lt _ (by decide)), hgroup]
      rfl
    rw [sevenBit, if_neg h, SevenBit.encode, if_neg (mt (hlast n).mpr h), hbyte, ih, hrest, put_put]
    rfl

theorem string_eq (text : String) : string text = put (Field.string text) := by
  unfold string Field.string
  rw [sevenBit_eq, put_put, UInt32.toNat_ofNat']

theorem blob_eq (content : List UInt8) : blob content = emit (Field.blob content) := by
  unfold blob Field.blob
  split
  · next h =>
    rw [compressed_eq, UInt32.toNat_ofNat', Nat.mod_eq_of_lt h]
    cases Compressed.encode content.length with
    | ok size => exact put_put size content
    | error fault => rfl
  · rfl

end Writer

/-! ## Fields of any kind -/

/-- A field as it is written; a floating-point number is its bits. -/
inductive FieldValue where
  | uint8 (n : UInt8)
  | int8 (v : Int8)
  | uint16 (n : UInt16)
  | int16 (v : Int16)
  | uint32 (n : UInt32)
  | int32 (v : Int32)
  | uint64 (n : UInt64)
  | int64 (v : Int64)
  | float32 (bits : UInt32)
  | float64 (bits : UInt64)
  | compressed (n : UInt32)
  | compressedInt (v : Int32)
  | sevenBit (n : UInt32)
  | string (text : String)
  | blob (content : List UInt8)
  deriving DecidableEq

/-- What a reader has to know of a field. -/
inductive FieldKind where
  | uint8 | int8 | uint16 | int16 | uint32 | int32 | uint64 | int64 | float32 | float64
  | compressed | compressedInt | sevenBit | string | blob

/-- The reader of the fields of a kind. -/
def FieldKind.read : FieldKind → Reader FieldValue
  | .uint8 => return .uint8 (← Reader.byte)
  | .int8 => return .int8 (← Reader.int8)
  | .uint16 => return .uint16 (← Reader.uint16)
  | .int16 => return .int16 (← Reader.int16)
  | .uint32 => return .uint32 (← Reader.uint32)
  | .int32 => return .int32 (← Reader.int32)
  | .uint64 => return .uint64 (← Reader.uint64)
  | .int64 => return .int64 (← Reader.int64)
  | .float32 => return .float32 (← Reader.uint32)
  | .float64 => return .float64 (← Reader.uint64)
  | .compressed => return .compressed (UInt32.ofNat (← Reader.compressed))
  | .compressedInt => return .compressedInt (Int32.ofInt (← Reader.compressedInt))
  | .sevenBit => return .sevenBit (← Reader.sevenBit)
  | .string => return .string (← Reader.string)
  | .blob => return .blob (← Reader.blob)

namespace FieldValue

def kind : FieldValue → FieldKind
  | .uint8 _ => .uint8
  | .int8 _ => .int8
  | .uint16 _ => .uint16
  | .int16 _ => .int16
  | .uint32 _ => .uint32
  | .int32 _ => .int32
  | .uint64 _ => .uint64
  | .int64 _ => .int64
  | .float32 _ => .float32
  | .float64 _ => .float64
  | .compressed _ => .compressed
  | .compressedInt _ => .compressedInt
  | .sevenBit _ => .sevenBit
  | .string _ => .string
  | .blob _ => .blob

def write : FieldValue → Writer Unit
  | .uint8 n => Writer.word 1 n.toNat
  | .int8 v => Writer.word 1 v.toUInt8.toNat
  | .uint16 n => Writer.word 2 n.toNat
  | .int16 v => Writer.word 2 v.toUInt16.toNat
  | .uint32 n => Writer.word 4 n.toNat
  | .int32 v => Writer.word 4 v.toUInt32.toNat
  | .uint64 n => Writer.word 8 n.toNat
  | .int64 v => Writer.word 8 v.toUInt64.toNat
  | .float32 bits => Writer.word 4 bits.toNat
  | .float64 bits => Writer.word 8 bits.toNat
  | .compressed n => Writer.compressed n
  | .compressedInt v => Writer.compressedInt v
  | .sevenBit n => Writer.sevenBit n
  | .string text => Writer.string text
  | .blob content => Writer.blob content

/-- The bytes of a field, if it has any. -/
def encode : FieldValue → Except Fault (List UInt8)
  | .uint8 n => .ok [n]
  | .int8 v => .ok [v.toUInt8]
  | .uint16 n => .ok (Field.uint16 n)
  | .int16 v => .ok (Field.uint16 v.toUInt16)
  | .uint32 n => .ok (Field.uint32 n)
  | .int32 v => .ok (Field.uint32 v.toUInt32)
  | .uint64 n => .ok (Field.uint64 n)
  | .int64 v => .ok (Field.uint64 v.toUInt64)
  | .float32 bits => .ok (Field.uint32 bits)
  | .float64 bits => .ok (Field.uint64 bits)
  | .compressed n => Compressed.encode n.toNat
  | .compressedInt v => Compressed.encodeInt v.toInt
  | .sevenBit n => .ok (SevenBit.encode n.toNat)
  | .string text => .ok (Field.string text)
  | .blob content => Field.blob content

/-- The size of a string fits in its field. -/
def Writable : FieldValue → Prop
  | .string text => Field.Writable text
  | _ => True

theorem write_eq (f : FieldValue) : f.write = Writer.emit f.encode := by
  have hbyte : ∀ n : UInt8, Little.encode 1 n.toNat = [n] := fun n => by
    rw [Little.encode, UInt8.ofNat_toNat]
    rfl
  cases f with
  | uint8 n => exact congrArg Writer.put (hbyte n)
  | int8 v => exact congrArg Writer.put (hbyte v.toUInt8)
  | compressed n => exact Writer.compressed_eq n
  | compressedInt v => exact Writer.compressedInt_eq v
  | sevenBit n => exact Writer.sevenBit_eq n
  | string text => exact Writer.string_eq text
  | blob content => exact Writer.blob_eq content
  | _ => rfl

/-- A field is read from the bytes that are written for it. -/
theorem reads {f : FieldValue} {piece : List UInt8} (hf : f.Writable) (h : f.encode = .ok piece) :
    Reader.Reads f.kind.read piece f := by
  cases f with
  | uint8 n => cases h; exact (Reader.reads_byte n).bind_pure
  | int8 v => cases h; exact (Reader.reads_int8 v).bind_pure
  | uint16 n => cases h; exact (Reader.reads_uint16 n).bind_pure
  | int16 v => cases h; exact (Reader.reads_uint16 v.toUInt16).bind_pure.bind_pure
  | uint32 n => cases h; exact (Reader.reads_uint32 n).bind_pure
  | int32 v => cases h; exact (Reader.reads_int32 v).bind_pure
  | uint64 n => cases h; exact (Reader.reads_uint64 n).bind_pure
  | int64 v => cases h; exact (Reader.reads_int64 v).bind_pure
  | float32 bits => cases h; exact (Reader.reads_uint32 bits).bind_pure
  | float64 bits => cases h; exact (Reader.reads_uint64 bits).bind_pure
  | compressed n =>
    have := (Reader.reads_compressed h).bind_pure (f := fun n => FieldValue.compressed (UInt32.ofNat n))
    rwa [UInt32.ofNat_toNat] at this
  | compressedInt v =>
    have := (Reader.reads_compressedInt h).bind_pure (f := fun v => FieldValue.compressedInt (Int32.ofInt v))
    rwa [Int32.ofInt_toInt] at this
  | sevenBit n =>
    cases h
    have := (Reader.reads_sevenBit n.toNat_lt).bind_pure (f := FieldValue.sevenBit)
    rwa [UInt32.ofNat_toNat] at this
  | string text => cases h; exact (Reader.reads_string hf).bind_pure
  | blob content => exact (Reader.reads_blob h).bind_pure

/-! ## Sequences of fields -/

/-- Writes fields one after another, up to the first one that cannot be written. -/
def writeAll (fields : List FieldValue) : Writer Unit :=
  fields.forM write

/-- Reads one field of each kind. -/
def readAll (kinds : List FieldKind) : Reader (List FieldValue) :=
  kinds.mapM FieldKind.read

/-- What is written is a piece for each field. -/
theorem writeAll_ok {fields : List FieldValue} {before out : List UInt8} (h : writeAll fields before = .ok () out) :
    ∃ pieces, out = before ++ pieces.flatten ∧ List.Forall₂ (fun f piece => f.encode = .ok piece) fields pieces := by
  induction fields generalizing before with
  | nil =>
    cases h
    exact ⟨[], (List.append_nil _).symm, .nil⟩
  | cons f fields ih =>
    obtain ⟨_, mid, hf, hrest⟩ := edit_bind_ok.mp h
    rw [write_eq, Writer.emit_ok] at hf
    obtain ⟨piece, hpiece, rfl⟩ := hf
    obtain ⟨pieces, rfl, hpieces⟩ := ih hrest
    exact ⟨piece :: pieces, by rw [List.flatten_cons, List.append_assoc], .cons hpiece hpieces⟩

theorem reads_all {fields : List FieldValue} {pieces : List (List UInt8)}
    (h : List.Forall₂ (fun f piece => Reader.Reads f.kind.read piece f) fields pieces) :
    Reader.Reads (readAll (fields.map kind)) pieces.flatten fields := by
  induction h with
  | nil => exact Reader.Reads.pure []
  | @cons f piece fields pieces hf _ ih =>
    unfold readAll at ih ⊢
    rw [List.map_cons, List.mapM_cons, List.flatten_cons]
    exact hf.bind ih.bind_pure

/-- Wherever it writes, the writer appends `piece`; wherever that comes next, the reader takes just it and gives `a`. -/
def Transfers {α : Type} (w : Writer Unit) (piece : List UInt8) (r : Reader α) (a : α) : Prop :=
  (∀ before, w before = .ok () (before ++ piece)) ∧ Reader.Reads r piece a

theorem transfers {f : FieldValue} {piece : List UInt8} (hf : f.Writable) (h : f.encode = .ok piece) :
    Transfers f.write piece f.kind.read f := by
  refine ⟨fun before => ?_, reads hf h⟩
  rw [write_eq, Writer.emit_ok]
  exact ⟨piece, h, rfl⟩

theorem transfers_compressed (n : UInt32) :
    if n.toNat ≤ Compressed.limit then ∃ piece, Transfers (Writer.compressed n) piece Reader.compressed n.toNat
    else ∀ before, Writer.compressed n before = .error (.malformed (.compressedRange n.toNat)) before := by
  rw [Writer.compressed_eq]
  split
  · next h =>
    obtain ⟨piece, hpiece, -⟩ := Compressed.encode_of_le h
    refine ⟨piece, fun before => ?_, Reader.reads_compressed hpiece⟩
    exact Writer.emit_ok.mpr ⟨piece, hpiece, rfl⟩
  · next h =>
    intro before
    rw [Compressed.encode_of_limit_lt (Nat.lt_of_not_le h)]
    rfl

theorem transfers_compressedInt (v : Int32) :
    if -2 ^ 28 ≤ v.toInt ∧ v.toInt ≤ 2 ^ 28 - 1 then
      ∃ piece, Transfers (Writer.compressedInt v) piece Reader.compressedInt v.toInt
    else ∀ before, Writer.compressedInt v before =
      .error (.malformed (.compressedRange (Compressed.zigzag v.toInt))) before := by
  have h := transfers_compressed (Writer.folded v)
  rw [Writer.toNat_folded] at h
  simp only [Compressed.zigzag_le_limit] at h
  split at h
  · next hv =>
    rw [if_pos hv]
    obtain ⟨piece, hwrite, hread⟩ := h
    have := hread.bind_pure (f := Compressed.unzigzag)
    rw [Compressed.unzigzag_zigzag] at this
    exact ⟨piece, hwrite, this⟩
  · next hv =>
    rw [if_neg hv]
    exact h

/--
A sequence of fields that is written appends a piece for each of them. Each field is read from its piece and takes nothing
else, so the whole sequence is read from the end of what was written before, whatever follows. A compressed number can be
written just if it fits in 29 bits, a signed one just if it fits in them with its sign; a field that cannot be written
appends nothing.
-/
theorem readAll_of_writeAll (fields : List FieldValue) (front : List UInt8) :
    (∀ out, (∀ f ∈ fields, f.Writable) → writeAll fields front = .ok () out →
      ∃ pieces, out = front ++ pieces.flatten ∧
        List.Forall₂ (fun f piece => f.encode = .ok piece ∧ Transfers f.write piece f.kind.read f) fields pieces ∧
        ∀ (c : Cursor) (tail : List UInt8), c.data = out ++ tail → c.pos = front.length →
          ∃ c', readAll (fields.map kind) c = .ok fields c' ∧ c'.pos = out.length ∧ c'.rest = tail) ∧
    (∀ n : UInt32,
      if n.toNat ≤ 0x1FFFFFFF then ∃ piece, Transfers (Writer.compressed n) piece Reader.compressed n.toNat
      else ∀ before, Writer.compressed n before = .error (.malformed (.compressedRange n.toNat)) before) ∧
    (∀ v : Int32,
      if -2 ^ 28 ≤ v.toInt ∧ v.toInt ≤ 2 ^ 28 - 1 then
        ∃ piece, Transfers (Writer.compressedInt v) piece Reader.compressedInt v.toInt
      else ∀ before, Writer.compressedInt v before =
        .error (.malformed (.compressedRange (Compressed.zigzag v.toInt))) before) ∧
    ∀ (f : FieldValue) (fault : Fault) (out : List UInt8), f.write front = .error fault out →
      f.encode = .error fault ∧ out = front := by
  refine ⟨?_, transfers_compressed, transfers_compressedInt, ?_⟩
  · intro out hfits hwrite
    obtain ⟨pieces, rfl, hpieces⟩ := writeAll_ok hwrite
    have htransfers := forall₂_imp_mem hpieces fun f hf piece hpiece => And.intro hpiece (transfers (hfits f hf) hpiece)
    refine ⟨pieces, rfl, htransfers, ?_⟩
    intro c tail hdata hpos
    have hrest : c.rest = pieces.flatten ++ tail := by
      rw [c.rest_eq, hdata, hpos, List.append_assoc, List.drop_left]
    obtain ⟨c', hread, hpos', hrest'⟩ := reads_all (htransfers.imp fun _ _ h => h.2.2) front.length c tail hpos hrest
    exact ⟨c', hread, by rw [hpos', List.length_append], hrest'⟩
  · intro f fault out h
    rw [write_eq] at h
    exact Writer.emit_error h

/-- Fields of several kinds and sizes, between other bytes. -/
theorem readAll_of_writeAll_mixed :
    ∃ fields out, fields = [.int16 (-2), .float64 0x3FF0000000000000, .compressed 0x4000, .compressedInt (-268435456),
        .sevenBit 0xFFFFFFFF, .string "é", .blob [1, 2, 3]] ∧
      writeAll fields [0xAA] = .ok () out ∧
      ∀ c : Cursor, c.data = out ++ [0xBB] → c.pos = 1 →
        ∃ c', readAll (fields.map kind) c = .ok fields c' ∧ c'.pos = out.length ∧ c'.rest = [0xBB] := by
  have hwrite : ∃ a out, writeAll [.int16 (-2), .float64 0x3FF0000000000000, .compressed 0x4000,
      .compressedInt (-268435456), .sevenBit 0xFFFFFFFF, .string "é", .blob [1, 2, 3]] [0xAA] = .ok a out ∧
        out.length = 31 := by decide +kernel
  obtain ⟨_, out, hwrite, -⟩ := hwrite
  have hstring : Field.Writable "é" := by unfold Field.Writable; decide +kernel
  refine ⟨_, out, rfl, hwrite, fun c hdata hpos => ?_⟩
  have hall := (readAll_of_writeAll _ [0xAA]).1 out (by simp [Writable, hstring]) hwrite
  obtain ⟨pieces, -, -, hread⟩ := hall
  exact hread c [0xBB] hdata hpos

end FieldValue

end CilProbes
