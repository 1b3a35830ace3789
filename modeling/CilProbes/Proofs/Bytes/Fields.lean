import CilProbes.Proofs.Bytes.SevenBit
import CilProbes.Proofs.Text.Utf8

/-!
# Reading back fields

Compressed integers, strings, blobs and counted lists are read as what was written for them (`reads_compressed`,
`reads_compressedInt`, `reads_string`, `reads_blob`, `reads_list`). A string can be written if its size fits in 32 bits
(`Field.Writable`), as that of every string that was read does (`writable_of_string`).
-/

namespace CilProbes

/-- The size of the text fits in its field. -/
def Field.Writable (text : String) : Prop :=
  (Utf8.encode text).length < 2 ^ 32

namespace Reader

/-! ## Compressed integers -/

theorem toNat_ofNat_of_lt (n : Nat) (h : n < 256) : (UInt8.ofNat n).toNat = n := by
  rw [UInt8.toNat_ofNat']
  omega

/-- A first byte below `0x80` is the number itself. -/
theorem reads_compressed_one {first : Nat} (h : first < 0x80) : Reads compressed [UInt8.ofNat first] first := by
  have hb := toNat_ofNat_of_lt first (by omega)
  refine Reads.byte_bind ?_
  rw [if_pos (UInt8.lt_iff_toNat_lt.mpr (by rw [hb]; exact h)), hb]
  exact Reads.pure first

/-- A first byte below `0xC0` is followed by one byte. -/
theorem reads_compressed_two (first : Nat) (hlo : 0x80 ≤ first) (hhi : first < 0xC0) (second : UInt8) :
    Reads compressed [UInt8.ofNat first, second] ((first - 0x80) * 0x100 + second.toNat) := by
  have hb := toNat_ofNat_of_lt first (by omega)
  refine Reads.byte_bind ?_
  rw [if_neg (mt UInt8.lt_iff_toNat_lt.mp (by rw [hb]; exact Nat.not_lt.mpr hlo)),
    if_pos (UInt8.lt_iff_toNat_lt.mpr (by rw [hb]; exact hhi)), hb]
  exact (reads_byte second).bind_pure

/-- A first byte below `0xE0` is followed by three bytes. -/
theorem reads_compressed_four (first : Nat) (hlo : 0xC0 ≤ first) (hhi : first < 0xE0) (b1 b2 b3 : UInt8) :
    Reads compressed [UInt8.ofNat first, b1, b2, b3]
      ((first - 0xC0) * 0x1000000 + b1.toNat * 0x10000 + b2.toNat * 0x100 + b3.toNat) := by
  have hb := toNat_ofNat_of_lt first (by omega)
  refine Reads.byte_bind ?_
  rw [if_neg (mt UInt8.lt_iff_toNat_lt.mp (by rw [hb]; show ¬ first < 0x80; omega)),
    if_neg (mt UInt8.lt_iff_toNat_lt.mp (by rw [hb]; exact Nat.not_lt.mpr hlo)),
    if_pos (UInt8.lt_iff_toNat_lt.mpr (by rw [hb]; exact hhi)), hb]
  exact (reads_byte b1).bind ((reads_byte b2).bind (reads_byte b3).bind_pure)

theorem reads_compressed {n : Nat} {out : List UInt8} (h : Compressed.encode n = .ok out) :
    Reads compressed out n := by
  unfold Compressed.encode at h
  split_ifs at h with h1 h2 h3
  · cases h
    exact reads_compressed_one (by omega)
  · cases h
    have := reads_compressed_two (0x80 + n / 0x100) (by omega) (by omega) (UInt8.ofNat n)
    rwa [UInt8.toNat_ofNat', show (0x80 + n / 0x100 - 0x80) * 0x100 + n % 2 ^ 8 = n by omega] at this
  · cases h
    have hlimit : n ≤ 0x1FFFFFFF := h3
    have := reads_compressed_four (0xC0 + n / 0x1000000) (by omega) (by omega) (UInt8.ofNat (n / 0x10000))
      (UInt8.ofNat (n / 0x100)) (UInt8.ofNat n)
    rwa [UInt8.toNat_ofNat', UInt8.toNat_ofNat', UInt8.toNat_ofNat',
      show (0xC0 + n / 0x1000000 - 0xC0) * 0x1000000 + n / 0x10000 % 2 ^ 8 * 0x10000 + n / 0x100 % 2 ^ 8 * 0x100 +
        n % 2 ^ 8 = n by omega] at this

theorem reads_compressedInt {v : Int} {out : List UInt8} (h : Compressed.encodeInt v = .ok out) :
    Reads compressedInt out v := by
  have := (reads_compressed h).bind_pure (f := Compressed.unzigzag)
  rwa [Compressed.unzigzag_zigzag] at this

/-! ## Strings, blobs and lists -/

theorem reads_count {n : Nat} {out : List UInt8} (h : Field.count n = .ok out) : Reads compressed out n := by
  unfold Field.count at h
  split at h
  · exact reads_compressed h
  · cases h

theorem reads_blob {content out : List UInt8} (h : Field.blob content = .ok out) : Reads blob out content := by
  unfold Field.blob at h
  split at h
  · cases hsize : Compressed.encode content.length with
    | ok size =>
      rw [hsize] at h
      cases h
      exact (reads_compressed hsize).bind (reads_bytes content)
    | error fault =>
      rw [hsize] at h
      cases h
  · cases h

theorem reads_string {text : String} (h : Field.Writable text) : Reads string (Field.string text) text := by
  intro start
  unfold Field.Writable at h
  have hsize : (UInt32.ofNat (Utf8.encode text).length).toNat = (Utf8.encode text).length := by
    rw [UInt32.toNat_ofNat', Nat.mod_eq_of_lt h]
  unfold Field.string
  dsimp only
  rw [Nat.mod_eq_of_lt (by omega)]
  refine (reads_sevenBit h start).bind (ReadsAt.pos_bind ?_)
  rw [hsize]
  refine (reads_bytes (Utf8.encode text) _).bind_nil ?_
  rw [Utf8.decode_encode]
  exact ReadsAt.pure text _

theorem reads_list {α : Type} {r : Reader α} {count : List UInt8} {pieces : List (List UInt8)} {values : List α}
    (hcount : Field.count values.length = .ok count) (h : List.Forall₂ (Reads r) pieces values) :
    Reads (list r) (count ++ pieces.flatten) values :=
  (reads_count hcount).bind (reads_times h)

theorem reads_strings {texts : List String} {count : List UInt8} (hcount : Field.count texts.length = .ok count)
    (h : ∀ text ∈ texts, Field.Writable text) :
    Reads (list string) (count ++ texts.flatMap Field.string) texts :=
  reads_list hcount (List.forall₂_map_left_iff.mpr (List.forall₂_same.mpr fun text htext => reads_string (h text htext)))

/-! ## What was read -/

variable {c c' : Cursor}

theorem length_le_of_bytes {n : Nat} {bs : List UInt8} (h : bytes n c = .ok bs c') : bs.length ≤ n := by
  unfold bytes at h
  split at h
  · cases h
    exact List.length_take_le ..
  · cases h

theorem writable_of_string {text : String} (h : string c = .ok text c') : Field.Writable text := by
  obtain ⟨size, c₁, hsize, h⟩ := edit_bind_ok.mp h
  obtain ⟨start, c₂, hstart, h⟩ := edit_bind_ok.mp h
  obtain ⟨piece, c₃, hpiece, h⟩ := edit_bind_ok.mp h
  cases hfound : Utf8.decode piece with
  | ok found =>
    rw [hfound] at h
    cases h
    calc (Utf8.encode text).length
      _ ≤ piece.length := Utf8.length_encode_of_decode hfound
      _ ≤ size.toNat := length_le_of_bytes hpiece
      _ < 2 ^ 32 := size.toNat_lt
  | error fault =>
    rw [hfound] at h
    cases h

theorem mem_of_timesOnto {α : Type} {r : Reader α} {n : Nat} {done as : List α} (h : timesOnto r n done c = .ok as c') :
    ∀ a ∈ as, a ∈ done ∨ ∃ c₁ c₂, r c₁ = .ok a c₂ := by
  induction n generalizing done c with
  | zero =>
    cases h
    exact fun a ha => .inl (List.mem_reverse.mp ha)
  | succ n ih =>
    rw [timesOnto] at h
    cases hc : r c with
    | ok a c₁ =>
      simp only [hc] at h
      intro b hb
      rcases ih h b hb with hb | hb
      · rcases List.mem_cons.mp hb with rfl | hb
        · exact .inr ⟨c, c₁, hc⟩
        · exact .inl hb
      · exact .inr hb
    | error fault c₁ =>
      simp only [hc] at h
      cases h

/-- Every element of a list that was read was read as an element. -/
theorem mem_of_list {α : Type} {r : Reader α} {as : List α} (h : list r c = .ok as c') :
    ∀ a ∈ as, ∃ c₁ c₂, r c₁ = .ok a c₂ := by
  obtain ⟨count, c₁, hcount, h⟩ := edit_bind_ok.mp h
  exact fun a ha => (mem_of_timesOnto h a ha).resolve_left List.not_mem_nil

end Reader

end CilProbes
