import CilProbes.Proofs.Module.Reading

/-!
# Texts that do not fit in their fields

The size of a text is written with 32 bits. Of a longer text the size is cut, and no fault is raised: a text of 4 GiB is
read as no text, and reading goes on inside of it. There a reader may find what it refuses (`Module.parse_oversized`).
-/

namespace CilProbes

open Reader (Reads Refuses)

variable {text : String} {b : UInt8} {rest : List UInt8}

/-- Nothing is left of a size of 4 GiB. -/
theorem Field.string_of_oversized (h : (Utf8.encode text).length % 2 ^ 32 = 0) :
    Field.string text = 0 :: Utf8.encode text := by
  unfold Field.string
  dsimp only
  rw [show (0x100000000 : Nat) = 2 ^ 32 from rfl, h, SevenBit.encode, if_pos (by decide)]
  rfl

namespace Reader

theorem refuses_compressed (h : 0xE0 ≤ b) : Refuses compressed [b] (.malformed (.compressedInteger b)) := by
  have hbyte : ∀ n : UInt8, n ≤ 0xE0 → ¬ b < n := fun n hn => UInt8.not_lt.mpr (UInt8.le_trans hn h)
  refine (reads_byte b).bind_refuses_nil ?_
  rw [if_neg (hbyte 0x80 (by decide)), if_neg (hbyte 0xC0 (by decide)), if_neg (hbyte 0xE0 (by decide))]
  exact refuses_fail _

theorem reads_emptyString : Reads string [0] "" := by
  have hempty : Field.string "" = [0] := by decide +kernel
  rw [← hempty]
  exact reads_string (by unfold Field.Writable; decide +kernel)

end Reader

namespace Module

variable {m : Module} {texts : List String} {tables : List UInt8}

/-- Of a last attribute of 4 GiB no text is read, but the first byte is, and it may be none of a number. -/
theorem parse_oversized (hname : Field.Writable m.name) (hattributes : m.attributes = texts ++ [text])
    (htexts : ∀ t ∈ texts, Field.Writable t) (hsize : (Utf8.encode text).length % 2 ^ 32 = 0)
    (hfirst : Utf8.encode text = b :: rest) (hb : 0xE0 ≤ b) (h : Image.tables m = .ok tables) (more : List UInt8) :
    parse (tables ++ more) = .error (.malformed (.compressedInteger b)) := by
  obtain ⟨attributeCount, memberCount, members, stringCount, typeCount, hcount, -, -, -, -, rfl⟩ := Image.tables_ok h
  have hpieces : List.Forall₂ (Reads Reader.string) (texts.map Field.string ++ [[0]]) (texts ++ [""]) := by
    refine List.rel_append ?_ (.cons Reader.reads_emptyString .nil)
    exact List.forall₂_map_left_iff.mpr (List.forall₂_same.mpr fun t ht => Reader.reads_string (htexts t ht))
  have hlength : (texts ++ [""]).length = m.attributes.length := by
    rw [hattributes, List.length_append, List.length_append]
    rfl
  rw [← hlength] at hcount
  have hrefuses : Refuses Image.reader (Field.uint32 Image.magic ++ (Field.uint16 Image.majorVersion ++
      (Field.uint16 Image.minorVersion ++ (Field.string m.name ++
        ((attributeCount ++ (texts.map Field.string ++ [[0]]).flatten) ++ [b]))))) (.malformed (.compressedInteger b)) := by
    refine (Reader.reads_uint32 Image.magic).bind_refuses ?_
    rw [if_neg (not_not_intro rfl)]
    refine (Reader.reads_uint16 Image.majorVersion).bind_refuses ?_
    refine (Reader.reads_uint16 Image.minorVersion).bind_refuses ?_
    rw [if_neg (not_not_intro rfl)]
    refine (Reader.reads_string hname).bind_refuses ?_
    refine (Reader.reads_list hcount hpieces).bind_refuses ?_
    exact ((Reader.refuses_compressed hb).bind).bind
  have hrun := hrefuses.run (rest ++ (memberCount ++ (members.flatten ++ (stringCount ++
    (m.userStrings.flatMap Field.string ++ (typeCount ++ more))))))
  have hbytes : m.attributes.flatMap Field.string = (texts.map Field.string ++ [[0]]).flatten ++ b :: rest := by
    rw [hattributes, List.flatMap_append, List.flatMap_singleton, Field.string_of_oversized hsize, hfirst,
      List.flatten_append, List.flatMap_def, List.append_assoc]
    rfl
  rw [hbytes]
  simpa only [parse, List.append_assoc, List.cons_append, List.nil_append] using hrun

end Module

/-! ## A text of any size -/

/-- Letters behind a character of three bytes. -/
def oversized (letters : Nat) : String :=
  String.ofList ('\uFEFF' :: List.replicate letters 'a')

theorem encode_oversized (letters : Nat) :
    Utf8.encode (oversized letters) = 0xEF :: 0xBB :: 0xBF :: List.replicate letters 0x61 := by
  unfold Utf8.encode oversized
  rw [String.toList_ofList, List.flatMap_cons, List.flatMap_replicate,
    show String.utf8EncodeChar 'a' = [0x61] by decide +kernel, List.flatten_replicate_singleton]
  rfl

theorem length_encode_oversized (letters : Nat) : (Utf8.encode (oversized letters)).length = letters + 3 := by
  rw [encode_oversized, List.length_cons, List.length_cons, List.length_cons, List.length_replicate]

end CilProbes
