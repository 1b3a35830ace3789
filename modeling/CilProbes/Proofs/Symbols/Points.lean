import CilProbes.Proofs.Bytes.Fields
import CilProbes.Proofs.Bytes.Taken
import CilProbes.Symbols.SequencePoint

/-!
# Reading back sequence points

The blob that is written for some points is read as these points, if their documents have numbers (`parse_encode`).
Writer and reader walk the same context, so a record is read with the values that it was written with (`reads_point`).
Where a document has none, its number wraps around to 0, and the blob is refused (`parse_unnumbered`). Points that are
read lie at increasing offsets, and their documents have numbers (`ordered_of_parse`).
-/

namespace CilProbes

/-- A hidden span says nothing but its document. -/
def SourceSpan.WellFormed (s : SourceSpan) : Prop :=
  s.hidden = true → s = .hiddenIn s.document

/-- The document of the span has a number, counted from 1. -/
def SourceSpan.Numbered (s : SourceSpan) : Prop :=
  s.document + 1 ≠ 0
  deriving Decidable

theorem toNat_number {document : UInt64} (h : document + 1 ≠ 0) : (document + 1).toNat = document.toNat + 1 := by
  have hlt := document.toNat_lt
  have hne : (document + 1).toNat ≠ 0 := fun hzero => h (UInt64.toNat_inj.mp hzero)
  rw [UInt64.toNat_add, UInt64.toNat_one] at hne ⊢
  omega

theorem number_ne_zero {document : UInt64} (h : document.toNat + 1 < 2 ^ 64) : document + 1 ≠ 0 := by
  intro hzero
  have hnat := congrArg UInt64.toNat hzero
  rw [UInt64.toNat_add, UInt64.toNat_one, UInt64.toNat_zero] at hnat
  omega

namespace PointBlob

open Reader (Reads)

variable {c : Context} {p : OffsetPoint}

/-! ## Lines and columns -/

theorem column_eq (value : UInt16) : column (Int.ofNat value.toNat) = .ok value := by
  have := value.toNat_lt
  unfold column
  rw [if_pos (by simp only [Int.ofNat_eq_natCast]; omega)]
  simp

theorem line_eq (value : UInt32) : line (Int.ofNat value.toNat) = .ok value := by
  have := value.toNat_lt
  unfold line
  rw [if_pos (by simp only [Int.ofNat_eq_natCast]; omega)]
  simp

theorem delta_ok {value found : Int} (h : delta value = .ok found) : found = value := by
  unfold delta at h
  split at h
  · cases h
    rfl
  · cases h

/-! ## Records -/

theorem reads_start {s : SourceSpan} {bytes : List UInt8} (h : c.writeStart s = .ok bytes) :
    Reads c.readStart bytes (s.startLine, s.startColumn) := by
  unfold Context.writeStart at h
  unfold Context.readStart
  cases hstart : c.start with
  | none =>
    rw [hstart] at h
    obtain ⟨lines, hlines, h⟩ := bind_ok.mp h
    obtain ⟨columns, hcolumns, h⟩ := bind_ok.mp h
    cases h
    refine (Reader.reads_compressed hlines).bind ((Reader.reads_compressed hcolumns).bind_nil ?_)
    refine (Reader.reads_ofExcept (column_eq s.startColumn)).bind_nil ?_
    rw [UInt32.ofNat_toNat]
    exact Reads.pure _
  | some last =>
    obtain ⟨lastLine, lastColumn⟩ := last
    rw [hstart] at h
    obtain ⟨dl, hdl, h⟩ := bind_ok.mp h
    obtain ⟨lines, hlines, h⟩ := bind_ok.mp h
    obtain ⟨dc, hdc, h⟩ := bind_ok.mp h
    obtain ⟨columns, hcolumns, h⟩ := bind_ok.mp h
    cases h
    obtain rfl := delta_ok hdl
    obtain rfl := delta_ok hdc
    have hline : line (lastLine.toNat + (Int.ofNat s.startLine.toNat - Int.ofNat lastLine.toNat)) = .ok s.startLine := by
      rw [← line_eq]
      congr 1
      simp only [Int.ofNat_eq_natCast]
      omega
    have hcolumn : column (lastColumn.toNat + (Int.ofNat s.startColumn.toNat - Int.ofNat lastColumn.toNat)) =
        .ok s.startColumn := by
      rw [← column_eq]
      congr 1
      simp only [Int.ofNat_eq_natCast]
      omega
    refine (Reader.reads_compressedInt hlines).bind ?_
    rw [← List.nil_append columns]
    refine (Reader.reads_ofExcept hline).bind ?_
    refine (Reader.reads_compressedInt hcolumns).bind_nil ?_
    exact (Reader.reads_ofExcept hcolumn).bind_pure

/-- What is read after the extent of a visible span. -/
theorem reads_rest {start : List UInt8} {lines : Nat} {columns : Int} (hdocument : p.span.document = c.document)
    (hvisible : p.span.hidden = false) (hlines : p.span.startLine.toNat + lines = p.span.endLine.toNat)
    (hcolumns : p.span.startColumn.toNat + columns = p.span.endColumn.toNat) (hextent : ¬ (lines = 0 ∧ columns = 0))
    (hstart : c.writeStart p.span = .ok start) :
    Reads (if lines = 0 ∧ columns = 0 then return SourceSpan.hiddenIn c.document
      else do
        let found ← c.readStart
        let endLine ← Edit.ofExcept (line (found.1.toNat + lines))
        let endColumn ← Edit.ofExcept (column (found.2.toNat + columns))
        return {
          document := c.document, startLine := found.1, startColumn := found.2, endLine, endColumn, hidden := false })
      start p.span := by
  have hline : line (p.span.startLine.toNat + lines) = .ok p.span.endLine := by
    rw [← line_eq, ← hlines]
    rfl
  have hcolumn : column (p.span.startColumn.toNat + columns) = .ok p.span.endColumn := by
    rw [← column_eq, hcolumns]
    rfl
  rw [if_neg hextent]
  refine (reads_start hstart).bind_nil ?_
  dsimp only
  refine (Reader.reads_ofExcept hline).bind_nil ((Reader.reads_ofExcept hcolumn).bind_nil ?_)
  rw [← hdocument, ← hvisible]
  exact Reads.pure _

/-- A visible span is read from its extent and its start. -/
theorem reads_visible {extent start : List UInt8} (hdocument : p.span.document = c.document)
    (hvisible : p.span.hidden = false) (hextent : writeExtent p = .ok extent) (hstart : c.writeStart p.span = .ok start) :
    Reads c.readSpan (extent ++ start) p.span := by
  unfold writeExtent at hextent
  dsimp only at hextent
  split at hextent
  · cases hextent
  · next horder =>
    rw [UInt32.lt_iff_toNat_lt, Nat.not_lt] at horder
    obtain ⟨lines, hlines, hextent⟩ := bind_ok.mp hextent
    unfold Context.readSpan
    simp only [Int.ofNat_eq_natCast] at hextent
    split at hextent
    · next hsame =>
      split at hextent
      · cases hextent
      · split at hextent
        · cases hextent
        · next hpos hne =>
          obtain ⟨columns, hcolumns, hextent⟩ := bind_ok.mp hextent
          cases hextent
          rw [hsame, Nat.sub_self] at hlines
          rw [List.append_assoc]
          refine (Reader.reads_compressed hlines).bind ?_
          rw [if_pos rfl]
          refine ((Reader.reads_compressed hcolumns).map _).bind ?_
          refine reads_rest hdocument hvisible (by rw [hsame]; rfl) ?_ ?_ hstart
          · simp only [Int.ofNat_eq_natCast]
            omega
          · simp only [Int.ofNat_eq_natCast]
            omega
    · next hdiffer =>
      obtain ⟨dc, hdc, hextent⟩ := bind_ok.mp hextent
      obtain ⟨columns, hcolumns, hextent⟩ := bind_ok.mp hextent
      cases hextent
      obtain rfl := delta_ok hdc
      have hlt : p.span.startLine.toNat ≠ p.span.endLine.toNat := fun heq => hdiffer (UInt32.toNat_inj.mp heq.symm)
      rw [List.append_assoc]
      refine (Reader.reads_compressed hlines).bind ?_
      rw [if_neg (by omega)]
      refine (Reader.reads_compressedInt hcolumns).bind ?_
      exact reads_rest hdocument hvisible (by omega) (by omega) (by omega) hstart

theorem reads_hidden (c : Context) : Reads c.readSpan [0, 0] (.hiddenIn c.document) := by
  have h : Compressed.encode 0 = .ok [0] := rfl
  unfold Context.readSpan
  show Reads _ ([0] ++ [0]) _
  refine (Reader.reads_compressed h).bind ?_
  rw [if_pos rfl]
  exact ((Reader.reads_compressed h).map _).bind_nil (Reads.pure _)

/-- A document is read from its number. -/
theorem reads_number {document : UInt64} {bytes : List UInt8} (hnumber : document + 1 ≠ 0)
    (h : Field.count (document + 1).toNat = .ok bytes) : Reads readDocument bytes document := by
  rw [toNat_number hnumber] at h
  unfold readDocument
  refine (Reader.reads_count h).bind_nil ?_
  dsimp only
  rw [UInt64.ofNat_toNat]
  exact Reads.pure document

/-- A document record is read where there was a point before. -/
theorem reads_document {document : UInt64} {zero bytes : List UInt8} (hc : c.offset.isSome = true)
    (hnumber : document + 1 ≠ 0) (hzero : Compressed.encode 0 = .ok zero)
    (h : Field.count (document + 1).toNat = .ok bytes) :
    Reads c.readRecord (zero ++ bytes) ({ c with document }, none) := by
  unfold Context.readRecord
  refine (Reader.reads_compressed hzero).bind ?_
  rw [if_pos ⟨hc, rfl⟩]
  exact (reads_number hnumber h).bind_nil (Reads.pure _)

/-- A point is read from its offset and its span. -/
theorem reads_point {offset more : List UInt8} (hoffset : c.writeOffset p = .ok offset)
    (hspan : Reads c.readSpan more p.span) : Reads c.readRecord (offset ++ more) (c.after p, some p) := by
  unfold Context.writeOffset at hoffset
  have hread {difference : Nat} (hcompressed : Compressed.encode difference = .ok offset)
      (hpoint : ¬ (c.offset.isSome = true ∧ difference = 0)) (hnext : c.next difference = .ok p.offset) :
      Reads c.readRecord (offset ++ more) (c.after p, some p) := by
    unfold Context.readRecord
    refine (Reader.reads_compressed hcompressed).bind ?_
    rw [if_neg hpoint]
    exact (Reader.reads_ofExcept hnext).bind hspan.bind_pure
  cases hc : c.offset with
  | none =>
    rw [hc] at hoffset
    refine hread hoffset (by simp [hc]) ?_
    unfold Context.next
    rw [hc]
    exact congrArg Except.ok UInt32.ofNat_toNat
  | some last =>
    rw [hc] at hoffset
    dsimp only at hoffset
    split at hoffset
    · next hlt =>
      rw [UInt32.lt_iff_toNat_lt] at hlt
      have hlimit := p.offset.toNat_lt
      refine hread hoffset (by omega) ?_
      unfold Context.next
      rw [hc]
      dsimp only
      rw [Nat.add_sub_cancel' (Nat.le_of_lt hlt), if_pos hlimit, UInt32.ofNat_toNat]
    · cases hoffset

/-! ## Blobs -/

theorem reads_atEnd_cons {cursor : Cursor} {b : UInt8} {bs : List UInt8} (h : cursor.rest = b :: bs) :
    Reader.atEnd cursor = .ok false cursor := by
  unfold Reader.atEnd
  rw [h]
  rfl

/-- Reading on after a record. -/
theorem readOnto_record (fuel : Nat) (done : List OffsetPoint) {bytes tail : List UInt8} {next : Context}
    {found : Option OffsetPoint} {cursor : Cursor} (h : Reads c.readRecord bytes (next, found)) (hbytes : bytes ≠ [])
    (hrest : cursor.rest = bytes ++ tail) : ∃ cursor', cursor'.rest = tail ∧
      readOnto (fuel + 1) c done cursor = readOnto fuel next (found.toList ++ done) cursor' := by
  obtain ⟨cursor', hrecord, _, htail⟩ := h cursor.pos cursor tail rfl hrest
  refine ⟨cursor', htail, ?_⟩
  obtain ⟨b, bs, hcons⟩ := List.exists_cons_of_ne_nil (List.append_ne_nil_of_left_ne_nil hbytes tail)
  rw [readOnto]
  refine (edit_bind_of_ok (reads_atEnd_cons (hrest.trans hcons))).trans ?_
  refine (edit_bind_of_ok hrecord).trans ?_
  cases found <;> rfl

/-- Bytes of points, each written in the context of those in front of it. -/
theorem writeFrom_cons {ps : List OffsetPoint} {bytes : List UInt8} (h : writeFrom c (p :: ps) = .ok bytes) :
    ∃ document offset span more, c.writeDocument p = .ok document ∧ c.writeOffset p = .ok offset ∧
      (p.span.hidden = true ∧ span = [0, 0] ∨ p.span.hidden = false ∧
        ∃ extent start, writeExtent p = .ok extent ∧ c.writeStart p.span = .ok start ∧ span = extent ++ start) ∧
      writeFrom (c.after p) ps = .ok more ∧ bytes = document ++ (offset ++ span ++ more) := by
  obtain ⟨point, hpoint, h⟩ := bind_ok.mp h
  obtain ⟨more, hmore, h⟩ := bind_ok.mp h
  cases h
  obtain ⟨document, hdocument, hpoint⟩ := bind_ok.mp hpoint
  obtain ⟨offset, hoffset, hpoint⟩ := bind_ok.mp hpoint
  split at hpoint
  · next hhidden =>
    cases hpoint
    exact ⟨document, offset, [0, 0], more, hdocument, hoffset, .inl ⟨hhidden, rfl⟩, hmore, by
      simp only [List.append_assoc]⟩
  · next hvisible =>
    obtain ⟨extent, hextent, hpoint⟩ := bind_ok.mp hpoint
    obtain ⟨start, hstart, hpoint⟩ := bind_ok.mp hpoint
    cases hpoint
    exact ⟨document, offset, extent ++ start, more, hdocument, hoffset,
      .inr ⟨Bool.eq_false_iff.mpr hvisible, extent, start, hextent, hstart, rfl⟩, hmore, by
        simp only [List.append_assoc]⟩

theorem encode_ne_nil {n : Nat} {out : List UInt8} (h : Compressed.encode n = .ok out) : out ≠ [] := by
  rintro rfl
  unfold Compressed.encode at h
  split_ifs at h <;> cases h

theorem writeOffset_ne_nil {out : List UInt8} (h : c.writeOffset p = .ok out) : out ≠ [] := by
  unfold Context.writeOffset at h
  split at h
  · exact encode_ne_nil h
  · split at h
    · exact encode_ne_nil h
    · cases h

/-- Reading on after a document record, if there is one. -/
theorem readOnto_document (done : List OffsetPoint) {document tail : List UInt8} {fuel : Nat} {cursor : Cursor}
    (hnumbered : p.span.Numbered) (hfirst : c.offset = none → p.span.document = c.document)
    (h : c.writeDocument p = .ok document)
    (hfuel : (document ++ tail).length ≤ fuel) (hrest : cursor.rest = document ++ tail) :
    ∃ fuel' cursor', tail.length ≤ fuel' ∧ cursor'.rest = tail ∧
      readOnto fuel c done cursor = readOnto fuel' { c with document := p.span.document } done cursor' := by
  unfold Context.writeDocument at h
  split at h
  · next hsame =>
    cases h
    exact ⟨fuel, cursor, hfuel, hrest, by rw [hsame]⟩
  · next hdiffer =>
    obtain ⟨zero, hzero, h⟩ := bind_ok.mp h
    obtain ⟨count, hcount, h⟩ := bind_ok.mp h
    cases h
    have hsome : c.offset.isSome = true := by
      rw [Option.isSome_iff_ne_none]
      exact fun hnone => hdiffer (hfirst hnone)
    have hne : zero ++ count ≠ [] := List.append_ne_nil_of_left_ne_nil (encode_ne_nil hzero) count
    have hpos := List.length_pos_iff.mpr hne
    rw [List.length_append] at hfuel
    obtain ⟨fuel, rfl⟩ := Nat.exists_eq_add_one_of_ne_zero (show fuel ≠ 0 by omega)
    obtain ⟨cursor', htail, hread⟩ := readOnto_record fuel done (reads_document hsome hnumbered hzero hcount) hne hrest
    exact ⟨fuel, cursor', by omega, htail, hread⟩

/-- The first of the points that were written are read one after the other, and the others stay to be read. -/
theorem readOnto_front {front back : List OffsetPoint} {bytes : List UInt8} {fuel : Nat} {cursor : Cursor}
    (hwf : ∀ p ∈ front, p.span.WellFormed) (hnumbered : ∀ p ∈ front, p.span.Numbered)
    (hfirst : c.offset = none → ∀ p ∈ (front ++ back).head?, p.span.document = c.document)
    (h : writeFrom c (front ++ back) = .ok bytes) (hfuel : bytes.length ≤ fuel) (hrest : cursor.rest = bytes)
    (done : List OffsetPoint) :
    ∃ fuel' cursor', writeFrom (front.foldl Context.after c) back = .ok cursor'.rest ∧ cursor'.rest.length ≤ fuel' ∧
      readOnto fuel c done cursor = readOnto fuel' (front.foldl Context.after c) (front.reverse ++ done) cursor' := by
  induction front generalizing c done bytes fuel cursor with
  | nil => exact ⟨fuel, cursor, hrest ▸ h, hrest ▸ hfuel, rfl⟩
  | cons p front ih =>
    obtain ⟨document, offset, span, more, hdocument, hoffset, hspan, hmore, rfl⟩ := writeFrom_cons h
    obtain ⟨fuel, cursor, hfuel, hrest, hread⟩ := readOnto_document done (hnumbered p List.mem_cons_self)
      (fun hnone => hfirst hnone p rfl) hdocument hfuel hrest
    have hpoint : Reads (Context.readRecord { c with document := p.span.document }) (offset ++ span)
        (c.after p, some p) := by
      refine reads_point (c := { c with document := p.span.document }) hoffset ?_
      rcases hspan with ⟨hhidden, rfl⟩ | ⟨hvisible, extent, start, hextent, hstart, rfl⟩
      · rw [hwf p List.mem_cons_self hhidden]
        exact reads_hidden _
      · exact reads_visible rfl hvisible hextent hstart
    have hne : offset ++ span ≠ [] := List.append_ne_nil_of_left_ne_nil (writeOffset_ne_nil hoffset) span
    have hpos := List.length_pos_iff.mpr hne
    rw [List.length_append] at hfuel
    obtain ⟨fuel, rfl⟩ := Nat.exists_eq_add_one_of_ne_zero (show fuel ≠ 0 by omega)
    obtain ⟨cursor, htail, hnext⟩ := readOnto_record fuel done hpoint hne hrest
    have hfuel : more.length ≤ fuel := by omega
    obtain ⟨fuel', cursor', hback, hfuel', hlast⟩ := ih (fun q hq => hwf q (List.mem_cons_of_mem p hq))
      (fun q hq => hnumbered q (List.mem_cons_of_mem p hq)) (fun hnone => by cases hnone) hmore hfuel htail (p :: done)
    refine ⟨fuel', cursor', hback, hfuel', ?_⟩
    rw [hread, hnext, List.reverse_cons, List.append_assoc]
    exact hlast

/-- At the end of the data the points that were read are given. -/
theorem readOnto_nil (fuel : Nat) (done : List OffsetPoint) {cursor : Cursor} (hrest : cursor.rest = []) :
    readOnto fuel c done cursor = .ok done.reverse cursor := by
  cases fuel with
  | zero => rfl
  | succ fuel =>
    have hend : Reader.atEnd cursor = .ok true cursor := by
      unfold Reader.atEnd
      rw [hrest]
      rfl
    rw [readOnto]
    exact edit_bind_of_ok hend

theorem le_limit_of_encode {n : Nat} {out : List UInt8} (h : Compressed.encode n = .ok out) : n ≤ Compressed.limit := by
  unfold Compressed.encode Compressed.limit at *
  split_ifs at h <;> omega

theorem le_limit_of_count {n : Nat} {out : List UInt8} (h : Field.count n = .ok out) : n ≤ Compressed.limit := by
  unfold Field.count at h
  split at h
  · exact le_limit_of_encode h
  · cases h

theorem count_ne_nil {n : Nat} {out : List UInt8} (h : Field.count n = .ok out) : out ≠ [] := by
  unfold Field.count at h
  split at h
  · exact encode_ne_nil h
  · cases h

/-- A blob is read from its first document on. -/
theorem parse_number {document : UInt64} {count : List UInt8} (hnumber : document + 1 ≠ 0)
    (h : Field.count (document + 1).toNat = .ok count) (bytes : List UInt8) :
    ∃ fuel cursor, bytes.length ≤ fuel ∧ cursor.rest = bytes ∧ parse (count ++ bytes) =
      match readOnto fuel { document } [] cursor with
      | .ok ps _ => .ok ps
      | .error fault _ => .error fault := by
  obtain ⟨cursor, hread, _, hrest⟩ := reads_number hnumber h 0 (Cursor.start (count ++ bytes)) bytes rfl rfl
  refine ⟨(count ++ bytes).length, cursor, ?_, hrest, ?_⟩
  · rw [List.length_append]
    exact Nat.le_add_left ..
  · have hne : count ++ bytes ≠ [] := List.append_ne_nil_of_left_ne_nil (count_ne_nil h) bytes
    unfold parse
    rw [if_neg (by rwa [List.isEmpty_iff])]
    unfold Reader.run
    simp only [bind, EStateM.bind, hread]
    cases readOnto (count ++ bytes).length { document } [] cursor <;> rfl

/-- Points that are written are read again. -/
theorem parse_encode {ps : List OffsetPoint} {blob : List UInt8} (hwf : ∀ p ∈ ps, p.span.WellFormed)
    (hnumbered : ∀ p ∈ ps, p.span.Numbered) (h : encode ps = .ok blob) : parse blob = .ok ps := by
  cases ps with
  | nil =>
    cases h
    rfl
  | cons p ps =>
    obtain ⟨count, hcount, h⟩ := bind_ok.mp h
    obtain ⟨bytes, hbytes, h⟩ := bind_ok.mp h
    cases h
    obtain ⟨fuel, cursor, hfuel, hrest, hparse⟩ := parse_number (hnumbered p List.mem_cons_self) hcount bytes
    rw [← List.append_nil (p :: ps)] at hbytes
    obtain ⟨fuel, cursor', hnothing, -, hpoints⟩ := readOnto_front hwf hnumbered (fun _ q hq => by cases hq; rfl) hbytes
      hfuel hrest []
    have hend : cursor'.rest = [] := (Except.ok.inj hnothing).symm
    rw [hparse, hpoints, readOnto_nil _ _ hend, List.append_nil, List.reverse_reverse]

/-! ## Documents without a number -/

theorem number_zero {s : SourceSpan} (h : ¬s.Numbered) : Field.count (s.document + 1).toNat = .ok [0] := by
  rw [Decidable.not_not.mp h]
  rfl

theorem refuses_number : Reader.Refuses readDocument [0] (.malformed .documentZero) := by
  unfold readDocument
  exact (Reader.reads_count (show Field.count 0 = .ok [0] from rfl)).bind_refuses_nil (Reader.refuses_fail _)

theorem refuses_document (hc : c.offset.isSome = true) :
    Reader.Refuses c.readRecord [0, 0] (.malformed .documentZero) := by
  have hzero : Reader.Reads Reader.compressed [0] 0 := Reader.reads_compressed rfl
  unfold Context.readRecord
  refine hzero.bind_refuses (show Reader.Refuses _ [0] _ from ?_)
  rw [if_pos ⟨hc, rfl⟩]
  exact refuses_number.bind

/-- After points with numbers the context has one, and a point to come that is the first of all is in its document. -/
theorem foldl_after {front back : List OffsetPoint} (hnumbered : ∀ p ∈ front, p.span.Numbered)
    (hc : c.document + 1 ≠ 0) (hfirst : c.offset = none → ∀ p ∈ (front ++ back).head?, p.span.document = c.document) :
    (front.foldl Context.after c).document + 1 ≠ 0 ∧ ((front.foldl Context.after c).offset = none →
      ∀ p ∈ back.head?, p.span.document = (front.foldl Context.after c).document) := by
  induction front generalizing c with
  | nil => exact ⟨hc, hfirst⟩
  | cons p front ih =>
    exact ih (fun q hq => hnumbered q (List.mem_cons_of_mem p hq)) (hnumbered p List.mem_cons_self) nofun

/-- A point whose document has no number is in another document than the one before, and its record is refused. -/
theorem readOnto_unnumbered {ps : List OffsetPoint} {fuel : Nat} {cursor : Cursor} (done : List OffsetPoint)
    (hp : ¬p.span.Numbered) (hc : c.document + 1 ≠ 0) (hfirst : c.offset = none → p.span.document = c.document)
    (h : writeFrom c (p :: ps) = .ok cursor.rest) (hfuel : cursor.rest.length ≤ fuel) :
    ∃ cursor', readOnto fuel c done cursor = .error (.malformed .documentZero) cursor' := by
  have hother : p.span.document ≠ c.document := fun hsame => hp (fun hzero => hc (hsame ▸ hzero))
  have hsome : c.offset.isSome = true := Option.isSome_iff_ne_none.mpr fun hnone => hother (hfirst hnone)
  obtain ⟨document, offset, span, more, hdocument, -, -, -, hrest⟩ := writeFrom_cons h
  have hzeros : document = [0, 0] := by
    unfold Context.writeDocument at hdocument
    rw [if_neg hother, number_zero hp] at hdocument
    exact (Except.ok.inj hdocument).symm
  subst hzeros
  cases fuel with
  | zero =>
    rw [hrest] at hfuel
    cases hfuel
  | succ fuel =>
    obtain ⟨cursor', hrecord⟩ := refuses_document hsome cursor _ hrest
    refine ⟨cursor', ?_⟩
    rw [readOnto]
    exact (edit_bind_of_ok (reads_atEnd_cons hrest)).trans (edit_bind_of_error hrecord)

/-- Points one of which has no number for its document are written, but not read. -/
theorem parse_unnumbered {ps : List OffsetPoint} {blob : List UInt8} (hwf : ∀ p ∈ ps, p.span.WellFormed)
    (hunnumbered : ∃ p ∈ ps, ¬p.span.Numbered) (h : encode ps = .ok blob) :
    parse blob = .error (.malformed .documentZero) := by
  cases ps with
  | nil =>
    obtain ⟨p, hp, -⟩ := hunnumbered
    cases hp
  | cons q qs =>
    obtain ⟨count, hcount, h⟩ := bind_ok.mp h
    obtain ⟨bytes, hbytes, h⟩ := bind_ok.mp h
    cases h
    by_cases hq : q.span.Numbered
    · cases hfind : (q :: qs).find? fun p => ¬p.span.Numbered with
      | none =>
        obtain ⟨p, hp, hnot⟩ := hunnumbered
        exact absurd (decide_eq_true hnot) (List.find?_eq_none.mp hfind p hp)
      | some p =>
        obtain ⟨hp, front, back, hsplit, hfront⟩ := List.find?_eq_some_iff_append.mp hfind
        have hnumbered : ∀ r ∈ front, r.span.Numbered := fun r hr => by simpa using hfront r hr
        obtain ⟨fuel, cursor, hfuel, hrest, hparse⟩ := parse_number hq hcount bytes
        have hfirst (_ : Context.offset { document := q.span.document } = none) :
            ∀ r ∈ (front ++ p :: back).head?, r.span.document = q.span.document := by
          rw [← hsplit]
          exact fun r hr => by cases hr; rfl
        rw [hsplit] at hbytes hwf
        obtain ⟨fuel, cursor', hback, hfuel', hpoints⟩ := readOnto_front
          (fun r hr => hwf r (List.mem_append_left _ hr)) hnumbered hfirst hbytes hfuel hrest []
        obtain ⟨hdocument, hhead⟩ := foldl_after (c := { document := q.span.document }) hnumbered hq hfirst
        obtain ⟨cursor'', hfails⟩ := readOnto_unnumbered (front.reverse ++ []) (of_decide_eq_true hp) hdocument
          (fun hnone => hhead hnone p rfl) hback hfuel'
        rw [hparse, hpoints, hfails]
    · rw [number_zero hq] at hcount
      cases hcount
      unfold parse
      rw [if_neg (by simp)]
      exact refuses_number.bind.run bytes

/-! ## Points that are read -/

/-- Points at increasing offsets, in documents whose numbers can be written. -/
structure Ordered (ps : List OffsetPoint) : Prop where
  increasing : ps.Pairwise fun a b => a.offset < b.offset
  spans : ∀ p ∈ ps, p.span.WellFormed
  documents : ∀ p ∈ ps, p.span.document.toNat < Compressed.limit

theorem Ordered.nil : Ordered [] :=
  ⟨.nil, nofun, nofun⟩

theorem Ordered.numbered {ps : List OffsetPoint} (h : Ordered ps) : ∀ p ∈ ps, p.span.Numbered := by
  intro p hp
  have hlt : p.span.document.toNat < 0x1FFFFFFF := h.documents p hp
  exact number_ne_zero (by omega)

/-- A point behind the points before. -/
theorem Ordered.concat {ps : List OffsetPoint} (h : Ordered ps) (hspan : p.span.WellFormed)
    (hdocument : p.span.document.toNat < Compressed.limit) (hbehind : ∀ q ∈ ps, q.offset < p.offset) :
    Ordered (ps ++ [p]) where
  increasing := by
    refine List.pairwise_append.mpr ⟨h.increasing, List.pairwise_singleton _ _, fun q hq r hr => ?_⟩
    rw [List.mem_singleton.mp hr]
    exact hbehind q hq
  spans := List.forall_mem_append.mpr ⟨h.spans, List.forall_mem_singleton.mpr hspan⟩
  documents := List.forall_mem_append.mpr ⟨h.documents, List.forall_mem_singleton.mpr hdocument⟩

section Sound

variable {cursor cursor' : Cursor}

theorem document_sound {document : UInt64} (h : readDocument cursor = .ok document cursor') :
    document.toNat < Compressed.limit := by
  obtain ⟨n, cursor₁, hn, h⟩ := edit_bind_ok.mp h
  cases n with
  | zero => cases h
  | succ n =>
    cases h
    obtain ⟨out, hout, -⟩ := Reader.compressed_covers hn
    exact Nat.lt_of_le_of_lt (Nat.mod_le n _) (le_limit_of_encode hout)

theorem span_sound {s : SourceSpan} (h : c.readSpan cursor = .ok s cursor') :
    s.WellFormed ∧ s.document = c.document := by
  obtain ⟨lines, cursor₁, hlines, h⟩ := edit_bind_ok.mp h
  have hrest {columns : Int} {cursor₂ : Cursor} (h : (if lines = 0 ∧ columns = 0 then
      (return SourceSpan.hiddenIn c.document : Reader SourceSpan) else do
        let found ← c.readStart
        let endLine ← Edit.ofExcept (line (found.1.toNat + lines))
        let endColumn ← Edit.ofExcept (column (found.2.toNat + columns))
        return {
          document := c.document, startLine := found.1, startColumn := found.2, endLine, endColumn, hidden := false })
      cursor₂ = .ok s cursor') : s.WellFormed ∧ s.document = c.document := by
    split at h
    · cases h
      exact ⟨fun _ => rfl, rfl⟩
    · obtain ⟨start, cursor₃, hstart, h⟩ := edit_bind_ok.mp h
      obtain ⟨endLine, cursor₄, hendLine, h⟩ := edit_bind_ok.mp h
      obtain ⟨endColumn, cursor₅, hendColumn, h⟩ := edit_bind_ok.mp h
      cases h
      exact ⟨nofun, rfl⟩
  split at h
  · obtain ⟨columns, cursor₂, hcolumns, h⟩ := edit_bind_ok.mp h
    exact hrest h
  · obtain ⟨columns, cursor₂, hcolumns, h⟩ := edit_bind_ok.mp h
    exact hrest h

/-- A record is another document and leaves the offset as it is, or is a point behind the last one. -/
theorem record_sound {next : Context} {found : Option OffsetPoint}
    (h : c.readRecord cursor = .ok (next, found) cursor') :
    found = none ∧ next.offset = c.offset ∧ next.document.toNat < Compressed.limit ∨
      ∃ p, found = some p ∧ next = c.after p ∧ p.span.WellFormed ∧ p.span.document = c.document ∧
        ∀ last, c.offset = some last → last < p.offset := by
  obtain ⟨difference, cursor₁, hdifference, h⟩ := edit_bind_ok.mp h
  split at h
  · obtain ⟨document, cursor₂, hdocument, h⟩ := edit_bind_ok.mp h
    cases h
    exact .inl ⟨rfl, rfl, document_sound hdocument⟩
  · next hpoint =>
    obtain ⟨offset, cursor₂, hoffset, h⟩ := edit_bind_ok.mp h
    obtain ⟨span, cursor₃, hspan, h⟩ := edit_bind_ok.mp h
    cases h
    obtain ⟨hspan, hsame⟩ := span_sound hspan
    refine .inr ⟨_, rfl, rfl, hspan, hsame, fun last hlast => ?_⟩
    have hnext := (ofExcept_ok hoffset).1
    unfold Context.next at hnext
    rw [hlast] at hnext hpoint
    dsimp only at hnext
    split at hnext
    · next hlimit =>
      cases hnext
      have hpos : difference ≠ 0 := fun hzero => hpoint ⟨rfl, hzero⟩
      rw [UInt32.lt_iff_toNat_lt, UInt32.toNat_ofNat', Nat.mod_eq_of_lt hlimit]
      omega
    · cases hnext

theorem readOnto_sound {fuel : Nat} (done : List OffsetPoint) {ps : List OffsetPoint} (hdone : Ordered done.reverse)
    (hdocument : c.document.toNat < Compressed.limit)
    (hnone : c.offset = none → done = []) (hlast : ∀ last, c.offset = some last → ∀ p ∈ done, p.offset ≤ last)
    (h : readOnto fuel c done cursor = .ok ps cursor') : Ordered ps := by
  induction fuel generalizing c done cursor with
  | zero =>
    cases h
    exact hdone
  | succ fuel ih =>
    obtain ⟨last, cursor₁, hend, h⟩ := edit_bind_ok.mp h
    split at h
    · cases h
      exact hdone
    · obtain ⟨⟨next, found⟩, cursor₂, hrecord, h⟩ := edit_bind_ok.mp h
      rcases record_sound hrecord with ⟨rfl, hoffset, hnext⟩ | ⟨p, rfl, rfl, hspan, hsame, hbehind⟩
      · refine ih _ hdone hnext ?_ ?_ h
        · rwa [hoffset]
        · rwa [hoffset]
      · have hbefore : ∀ q ∈ done, q.offset < p.offset := by
          intro q hq
          cases hc : c.offset with
          | none =>
            rw [hnone hc] at hq
            cases hq
          | some last => exact UInt32.lt_of_le_of_lt (hlast last hc q hq) (hbehind last hc)
        have hp : p.span.document.toNat < Compressed.limit := hsame ▸ hdocument
        refine ih _ ?_ hp (fun hnone => by cases hnone) ?_ h
        · rw [List.reverse_cons]
          exact hdone.concat hspan hp fun q hq => hbefore q (List.mem_reverse.mp hq)
        · rintro _ ⟨⟩ q hq
          rcases List.mem_cons.mp hq with rfl | hq
          · exact UInt32.le_refl _
          · exact UInt32.le_of_lt (hbefore q hq)

end Sound

theorem ordered_of_parse {blob : List UInt8} {ps : List OffsetPoint} (h : parse blob = .ok ps) : Ordered ps := by
  unfold parse at h
  split at h
  · cases h
    exact .nil
  · obtain ⟨cursor, hrun⟩ := Reader.run_ok h
    obtain ⟨document, cursor₁, hdocument, hrun⟩ := edit_bind_ok.mp hrun
    exact readOnto_sound [] .nil (document_sound hdocument) (fun _ => rfl) (fun _ _ _ hp => absurd hp List.not_mem_nil) hrun

end PointBlob

end CilProbes
