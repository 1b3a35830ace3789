import CilProbes.Proofs.Symbols.Points
import CilProbes.Symbols.SymbolFile

/-!
# Reading back symbol files

A well-formed symbol file that is written is read as itself (`parse_encode`). A file that is read is well formed, and
its points are in order (`parsed_of_parse`).
-/

namespace CilProbes

/-- The first point of a record that is in none of `count` documents. -/
def MethodRecord.stray? (count : Nat) (r : MethodRecord) : Option OffsetPoint :=
  r.points.find? fun p => count ≤ p.span.document.toNat

theorem MethodRecord.stray?_eq_none {count : Nat} {r : MethodRecord} :
    r.stray? count = none ↔ ∀ p ∈ r.points, p.span.document.toNat < count := by
  unfold stray?
  rw [List.find?_eq_none]
  exact forall₂_congr fun p _ => by rw [decide_eq_true_eq, Nat.not_le]

namespace SymbolFile

/-- Every point is in a document of the file, and every text fits in its field. -/
structure WellFormed (s : SymbolFile) : Prop where
  documents : ∀ document ∈ s.documents, Field.Writable document
  spans : ∀ r ∈ s.methods, ∀ p ∈ r.points, p.span.WellFormed
  inside : ∀ r ∈ s.methods, ∀ p ∈ r.points, p.span.document.toNat < s.documents.length

/-- What is read: the points of each record lie at increasing offsets. -/
structure Parsed (s : SymbolFile) : Prop extends s.WellFormed where
  ordered : ∀ r ∈ s.methods, PointBlob.Ordered r.points

variable {s : SymbolFile} {bytes : List UInt8}

/-- A document of a file that can be written has a number. -/
theorem numbered_of_inside {span : SourceSpan} {count : Nat} {out : List UInt8} (hcount : Field.count count = .ok out)
    (hinside : span.document.toNat < count) : span.Numbered := by
  have hlimit : count ≤ 0x1FFFFFFF := PointBlob.le_limit_of_count hcount
  exact number_ne_zero (by omega)

theorem reads_record {r : MethodRecord} {count : Nat} {out : List UInt8} (hcount : Field.count count = .ok out)
    (hspans : ∀ p ∈ r.points, p.span.WellFormed) (hinside : ∀ p ∈ r.points, p.span.document.toNat < count)
    (h : recordBytes r = .ok bytes) : Reader.Reads (readRecord count) bytes r := by
  obtain ⟨points, hpoints, h⟩ := bind_ok.mp h
  obtain ⟨blob, hblob, h⟩ := bind_ok.mp h
  cases h
  have hfind : r.points.find? (fun p => decide (count ≤ p.span.document.toNat)) = none :=
    MethodRecord.stray?_eq_none.mpr hinside
  refine (Reader.reads_uint32 r.token.value).bind ((Reader.reads_blob hblob).bind_nil ?_)
  refine (Reader.reads_ofExcept (PointBlob.parse_encode hspans
    (fun p hp => numbered_of_inside hcount (hinside p hp)) hpoints)).bind_nil ?_
  rw [hfind]
  exact Reader.Reads.pure _

/-- A symbol file that is written is read again. -/
theorem parse_encode (hs : s.WellFormed) (h : encode s = .ok bytes) : parse bytes = .ok s := by
  obtain ⟨documents, hdocuments, h⟩ := bind_ok.mp h
  obtain ⟨methods, hmethods, h⟩ := bind_ok.mp h
  obtain ⟨records, hrecords, h⟩ := bind_ok.mp h
  cases h
  have hread : List.Forall₂ (Reader.Reads (readRecord s.documents.length)) records s.methods :=
    (forall₂_imp_mem (forall₂_of_mapM hrecords) fun r hr _ hbytes =>
      reads_record hdocuments (hs.spans r hr) (hs.inside r hr) hbytes).flip
  have hfile : Reader.Reads reader (Field.uint32 magic ++ (Field.uint16 version ++
      ((documents ++ s.documents.flatMap Field.string) ++ (methods ++ records.flatten)))) s := by
    refine (Reader.reads_uint32 magic).bind ?_
    rw [if_neg (not_not_intro rfl)]
    refine (Reader.reads_uint16 version).bind ?_
    rw [if_neg (not_not_intro rfl)]
    refine (Reader.reads_strings hdocuments hs.documents).bind ?_
    exact (Reader.reads_list hmethods hread).bind_pure
  unfold parse
  simpa only [List.append_assoc] using hfile.run

theorem record_sound {r : MethodRecord} {count : Nat} {c c' : Cursor} (h : readRecord count c = .ok r c') :
    PointBlob.Ordered r.points ∧ ∀ p ∈ r.points, p.span.document.toNat < count := by
  obtain ⟨token, c₁, htoken, h⟩ := edit_bind_ok.mp h
  obtain ⟨blob, c₂, hblob, h⟩ := edit_bind_ok.mp h
  obtain ⟨points, c₃, hpoints, h⟩ := edit_bind_ok.mp h
  cases hfind : points.find? fun p => decide (count ≤ p.span.document.toNat) with
  | some p =>
    rw [hfind] at h
    cases h
  | none =>
    rw [hfind] at h
    cases h
    exact ⟨PointBlob.ordered_of_parse (ofExcept_ok hpoints).1, MethodRecord.stray?_eq_none.mp hfind⟩

/-- The texts and the records of a file that is read were read as such. -/
theorem read_of_parse (h : parse bytes = .ok s) :
    (∀ document ∈ s.documents, ∃ c c', Reader.string c = .ok document c') ∧
      ∀ r ∈ s.methods, ∃ c c', readRecord s.documents.length c = .ok r c' := by
  obtain ⟨c, h⟩ := Reader.run_ok h
  obtain ⟨found, c₁, hfound, h⟩ := edit_bind_ok.mp h
  split at h
  · cases h
  · obtain ⟨version, c₂, hversion, h⟩ := edit_bind_ok.mp h
    split at h
    · cases h
    · obtain ⟨documents, c₃, hdocuments, h⟩ := edit_bind_ok.mp h
      obtain ⟨methods, c₄, hmethods, h⟩ := edit_bind_ok.mp h
      cases h
      exact ⟨Reader.mem_of_list hdocuments, Reader.mem_of_list hmethods⟩

theorem parsed_of_parse (h : parse bytes = .ok s) : s.Parsed := by
  obtain ⟨hdocuments, hmethods⟩ := read_of_parse h
  have hrecord (r : MethodRecord) (hr : r ∈ s.methods) :
      PointBlob.Ordered r.points ∧ ∀ p ∈ r.points, p.span.document.toNat < s.documents.length := by
    obtain ⟨c, c', hread⟩ := hmethods r hr
    exact record_sound hread
  refine ⟨⟨fun document hdocument => ?_, fun r hr => (hrecord r hr).1.spans, fun r hr => (hrecord r hr).2⟩,
    fun r hr => (hrecord r hr).1⟩
  obtain ⟨c, c', hread⟩ := hdocuments document hdocument
  exact Reader.writable_of_string hread

end SymbolFile

end CilProbes
