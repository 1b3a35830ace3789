import CilProbes.Bytes.Field
import CilProbes.Proofs.Outcome
import Mathlib.Algebra.Ring.Nat
import Mathlib.Data.List.Forall2

/-!
# What readers read

`Reads r bytes a` says that wherever `bytes` come next, `r` reads exactly these and gives `a`; `ReadsAt` says so for one
position. Readings compose (`Reads.bind`, `reads_times`), so the readers of a format are followed part by part. The
parts that formats are made of read what is written for them: words, integers of variable size, blobs and lists.
`Refuses r bytes fault` says that `r` fails wherever `bytes` come next, as a reading does when a part of it fails.
-/

namespace CilProbes

/-- Reading gives back what was written, up to the bytes that were left out. -/
theorem Little.decode_encode (size n : Nat) : Little.decode (Little.encode size n) = n % 256 ^ size := by
  induction size generalizing n with
  | zero => simp [Little.encode, Little.decode, Nat.mod_one]
  | succ size ih =>
    simp only [Little.encode, Little.decode, ih, UInt8.toNat_ofNat']
    have h : 256 ^ (size + 1) = 256 * 256 ^ size := Nat.pow_succ'
    rw [h]
    exact Nat.mod_mul.symm

namespace Reader

variable {α β : Type}

/-- Where `bytes` come next at the position `start`, `r` reads just these and gives `a`. -/
def ReadsAt (r : Reader α) (start : Nat) (bytes : List UInt8) (a : α) : Prop :=
  ∀ (c : Cursor) (tail : List UInt8), c.pos = start → c.rest = bytes ++ tail →
    ∃ c', r c = .ok a c' ∧ c'.pos = start + bytes.length ∧ c'.rest = tail

/-- Wherever `bytes` come next, `r` reads just these and gives `a`. -/
def Reads (r : Reader α) (bytes : List UInt8) (a : α) : Prop :=
  ∀ start, ReadsAt r start bytes a

/-! ## Composition -/

theorem ReadsAt.pure (a : α) (start : Nat) : ReadsAt (Pure.pure a) start [] a :=
  fun c _ hpos hrest => ⟨c, rfl, hpos, hrest⟩

theorem ReadsAt.bind {r : Reader α} {f : α → Reader β} {start : Nat} {bytes more : List UInt8} {a : α} {b : β}
    (h : ReadsAt r start bytes a) (hf : ReadsAt (f a) (start + bytes.length) more b) :
    ReadsAt (r >>= f) start (bytes ++ more) b := by
  intro c tail hpos hrest
  obtain ⟨c₁, hr, hpos₁, hrest₁⟩ := h c (more ++ tail) hpos (by rw [hrest, List.append_assoc])
  obtain ⟨c₂, hf, hpos₂, hrest₂⟩ := hf c₁ tail hpos₁ hrest₁
  refine ⟨c₂, ?_, by rw [hpos₂, List.length_append, Nat.add_assoc], hrest₂⟩
  show EStateM.bind r f c = _
  simp only [EStateM.bind, hr, hf]

theorem Reads.pure (a : α) : Reads (Pure.pure a) [] a :=
  ReadsAt.pure a

theorem Reads.bind {r : Reader α} {f : α → Reader β} {bytes more : List UInt8} {a : α} {b : β}
    (h : Reads r bytes a) (hf : Reads (f a) more b) : Reads (r >>= f) (bytes ++ more) b :=
  fun start => (h start).bind (hf _)

/-- A reading whose last step reads nothing. -/
theorem ReadsAt.bind_nil {r : Reader α} {f : α → Reader β} {start : Nat} {bytes : List UInt8} {a : α} {b : β}
    (h : ReadsAt r start bytes a) (hf : ReadsAt (f a) (start + bytes.length) [] b) :
    ReadsAt (r >>= f) start bytes b := by
  have := h.bind hf
  rwa [List.append_nil] at this

theorem Reads.bind_nil {r : Reader α} {f : α → Reader β} {bytes : List UInt8} {a : α} {b : β}
    (h : Reads r bytes a) (hf : Reads (f a) [] b) : Reads (r >>= f) bytes b :=
  fun start => (h start).bind_nil (hf _)

/-- A reading whose last step computes on what was read. -/
theorem Reads.bind_pure {r : Reader α} {f : α → β} {bytes : List UInt8} {a : α} (h : Reads r bytes a) :
    Reads (r >>= fun a => Pure.pure (f a)) bytes (f a) :=
  h.bind_nil (Reads.pure (f a))

theorem Reads.map {r : Reader α} {bytes : List UInt8} {a : α} (f : α → β) (h : Reads r bytes a) :
    Reads (f <$> r) bytes (f a) := by
  intro start c tail hpos hrest
  obtain ⟨c', hr, hc⟩ := h start c tail hpos hrest
  refine ⟨c', ?_, hc⟩
  show EStateM.map f r c = _
  simp only [EStateM.map, hr]

/-- A reading that asks for its position first. -/
theorem ReadsAt.pos_bind {f : Nat → Reader α} {start : Nat} {bytes : List UInt8} {a : α}
    (h : ReadsAt (f start) start bytes a) : ReadsAt (Reader.pos >>= f) start bytes a := by
  intro c tail hpos hrest
  subst hpos
  exact h c tail rfl hrest

theorem reads_ofExcept {e : Except Fault α} {a : α} (h : e = .ok a) : Reads (Edit.ofExcept e) [] a := by
  subst h
  exact Reads.pure a

/-- What is read from the start of a byte string is what running the reader gives. -/
theorem ReadsAt.run {r : Reader α} {bytes : List UInt8} {a : α} (h : ReadsAt r 0 bytes a) (tail : List UInt8) :
    r.run (bytes ++ tail) = .ok a := by
  obtain ⟨c, hr, _⟩ := h (Cursor.start (bytes ++ tail)) tail rfl rfl
  unfold Reader.run
  rw [hr]

theorem Reads.run {r : Reader α} {bytes : List UInt8} {a : α} (h : Reads r bytes a) : r.run bytes = .ok a := by
  have := (h 0).run []
  rwa [List.append_nil] at this

/-- Where just `bytes` are left, `r` gives `a`. -/
def ReadsLast (r : Reader α) (bytes : List UInt8) (a : α) : Prop :=
  ∀ c : Cursor, c.rest = bytes → ∃ c', r c = .ok a c'

theorem Reads.bind_last {r : Reader α} {f : α → Reader β} {bytes more : List UInt8} {a : α} {b : β}
    (h : Reads r bytes a) (hf : ReadsLast (f a) more b) : ReadsLast (r >>= f) (bytes ++ more) b := by
  intro c hrest
  obtain ⟨c₁, hr, _, hrest₁⟩ := h c.pos c more rfl hrest
  obtain ⟨c₂, hf⟩ := hf c₁ hrest₁
  refine ⟨c₂, ?_⟩
  show EStateM.bind r f c = _
  simp only [EStateM.bind, hr, hf]

/-- A reading that asks at the end how much is left. -/
theorem readsLast_remaining {f : Nat → Reader α} {a : α} (h : f 0 = Pure.pure a) :
    ReadsLast (remaining >>= f) [] a := by
  intro c hrest
  have hleft : c.remaining = 0 := by rw [← c.length_rest, hrest, List.length_nil]
  refine ⟨c, ?_⟩
  show f c.remaining c = _
  rw [hleft, h]
  rfl

theorem ReadsLast.run {r : Reader α} {bytes : List UInt8} {a : α} (h : ReadsLast r bytes a) : r.run bytes = .ok a := by
  obtain ⟨c, hr⟩ := h (Cursor.start bytes) rfl
  unfold Reader.run
  rw [hr]

theorem run_ok {r : Reader α} {data : List UInt8} {a : α} (h : r.run data = .ok a) :
    ∃ c, r (Cursor.start data) = .ok a c := by
  unfold run at h
  split at h
  · next found c hfound =>
    cases h
    exact ⟨c, hfound⟩
  · cases h

/-- Reading one element after another. -/
theorem reads_timesOnto {r : Reader α} {pieces : List (List UInt8)} {values : List α}
    (h : List.Forall₂ (Reads r) pieces values) (done : List α) :
    Reads (timesOnto r values.length done) pieces.flatten (done.reverse ++ values) := by
  induction h generalizing done with
  | nil =>
    intro start c tail hpos hrest
    exact ⟨c, by rw [List.append_nil]; rfl, hpos, hrest⟩
  | @cons piece value pieces values hr _ ih =>
    intro start c tail hpos hrest
    rw [List.flatten_cons, List.append_assoc] at hrest
    obtain ⟨c₁, h₁, hpos₁, hrest₁⟩ := hr start c _ hpos hrest
    obtain ⟨c₂, h₂, hpos₂, hrest₂⟩ := ih (value :: done) _ c₁ tail hpos₁ hrest₁
    refine ⟨c₂, ?_, by rw [hpos₂, List.flatten_cons, List.length_append, Nat.add_assoc], hrest₂⟩
    simp only [List.length_cons, timesOnto, h₁, h₂, List.reverse_cons, List.append_assoc, List.cons_append,
      List.nil_append]

theorem reads_times {r : Reader α} {pieces : List (List UInt8)} {values : List α}
    (h : List.Forall₂ (Reads r) pieces values) : Reads (times values.length r) pieces.flatten values :=
  reads_timesOnto h []

/-! ## Bytes and words -/

theorem le_remaining {c : Cursor} {bytes tail : List UInt8} (h : c.rest = bytes ++ tail) :
    bytes.length ≤ c.remaining := by
  rw [← c.length_rest, h, List.length_append]
  exact Nat.le_add_right ..

theorem reads_bytes (piece : List UInt8) : Reads (bytes piece.length) piece piece := by
  intro start c tail hpos hrest
  have hle := le_remaining hrest
  refine ⟨c.advance piece.length hle, ?_, by rw [← hpos]; rfl, ?_⟩
  · unfold bytes
    rw [dif_pos hle, hrest, List.take_left]
  · show c.rest.drop piece.length = tail
    rw [hrest, List.drop_left]

theorem reads_byte (b : UInt8) : Reads byte [b] b := by
  intro start c tail hpos hrest
  have hle : [b].length ≤ c.remaining := le_remaining hrest
  refine ⟨c.advance 1 hle, ?_, by rw [← hpos]; rfl, ?_⟩
  · unfold byte
    split
    · next h => rw [h] at hrest; cases hrest
    · next h => rw [h] at hrest; cases hrest; rfl
  · show c.rest.drop 1 = tail
    rw [hrest]
    rfl

theorem Reads.byte_bind {f : UInt8 → Reader α} {b : UInt8} {more : List UInt8} {a : α} (h : Reads (f b) more a) :
    Reads (byte >>= f) (b :: more) a :=
  (reads_byte b).bind h

theorem reads_word (size n : Nat) : Reads (word size) (Little.encode size n) (n % 256 ^ size) := by
  have h := reads_bytes (Little.encode size n)
  rw [Little.length_encode] at h
  rw [← Little.decode_encode]
  exact h.bind_pure

theorem reads_word_of_lt {size n : Nat} (h : n < 256 ^ size) : Reads (word size) (Little.encode size n) n := by
  have := reads_word size n
  rwa [Nat.mod_eq_of_lt h] at this

theorem reads_uint16 (n : UInt16) : Reads uint16 (Field.uint16 n) n := by
  have h : Reads uint16 (Field.uint16 n) (UInt16.ofNat n.toNat) := (reads_word_of_lt n.toNat_lt).bind_pure
  rwa [UInt16.ofNat_toNat] at h

theorem reads_uint32 (n : UInt32) : Reads uint32 (Field.uint32 n) n := by
  have h : Reads uint32 (Field.uint32 n) (UInt32.ofNat n.toNat) := (reads_word_of_lt n.toNat_lt).bind_pure
  rwa [UInt32.ofNat_toNat] at h

theorem reads_uint64 (n : UInt64) : Reads uint64 (Field.uint64 n) n := by
  have h : Reads uint64 (Field.uint64 n) (UInt64.ofNat n.toNat) := (reads_word_of_lt n.toNat_lt).bind_pure
  rwa [UInt64.ofNat_toNat] at h

theorem reads_int8 (v : Int8) : Reads int8 [v.toUInt8] v :=
  (reads_byte v.toUInt8).bind_pure

theorem reads_int32 (v : Int32) : Reads int32 (Field.uint32 v.toUInt32) v :=
  (reads_uint32 v.toUInt32).bind_pure

theorem reads_int64 (v : Int64) : Reads int64 (Field.uint64 v.toUInt64) v :=
  (reads_uint64 v.toUInt64).bind_pure

/-! ## Failing -/

section Refuses

variable {r : Reader α} {f : α → Reader β} {bytes more : List UInt8} {a : α} {fault : Fault}

/-- Wherever `bytes` come next, `r` fails. -/
def Refuses (r : Reader α) (bytes : List UInt8) (fault : Fault) : Prop :=
  ∀ (c : Cursor) (tail : List UInt8), c.rest = bytes ++ tail → ∃ c', r c = .error fault c'

theorem Refuses.bind (h : Refuses r bytes fault) : Refuses (r >>= f) bytes fault := by
  intro c tail hrest
  obtain ⟨c', hr⟩ := h c tail hrest
  exact ⟨c', edit_bind_of_error hr⟩

theorem Reads.bind_refuses (h : Reads r bytes a) (hf : Refuses (f a) more fault) :
    Refuses (r >>= f) (bytes ++ more) fault := by
  intro c tail hrest
  obtain ⟨c₁, hr, -, hrest₁⟩ := h c.pos c (more ++ tail) rfl (by rw [hrest, List.append_assoc])
  obtain ⟨c₂, hf⟩ := hf c₁ tail hrest₁
  exact ⟨c₂, (edit_bind_of_ok hr).trans hf⟩

/-- A failing reading whose last step reads nothing. -/
theorem Reads.bind_refuses_nil (h : Reads r bytes a) (hf : Refuses (f a) [] fault) : Refuses (r >>= f) bytes fault := by
  have := h.bind_refuses hf
  rwa [List.append_nil] at this

theorem refuses_fail (cause : Malformation) : Refuses (fail cause : Reader α) [] (.malformed cause) :=
  fun c _ _ => ⟨c, rfl⟩

theorem refuses_ofExcept {e : Except Fault α} (h : e = .error fault) : Refuses (Edit.ofExcept e : Reader α) [] fault := by
  subst h
  exact fun c _ _ => ⟨c, rfl⟩

theorem Refuses.run (h : Refuses r bytes fault) (tail : List UInt8) : r.run (bytes ++ tail) = .error fault := by
  obtain ⟨c, hr⟩ := h (Cursor.start (bytes ++ tail)) tail rfl
  unfold Reader.run
  rw [hr]

end Refuses

end Reader

end CilProbes
