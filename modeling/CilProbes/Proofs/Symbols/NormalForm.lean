import CilProbes.Proofs.Bytes.Taken
import CilProbes.Proofs.Symbols.Points

/-!
# The normal form of a blob of points

Of a hidden point only the offset and the document are written, so points are read back with their hidden spans made
normal, unless a document is the last index of all and its number wraps around (`parse_normal`).

A blob may say the same in more bytes than needed: with padded integers, and with document records that another one
follows or that nothing follows. The points of every blob that is read can be written again, in no more bytes, and are
then read again (`encode_parsed`).

A blob is followed record by record, beside the blob that is written for its points. The two contexts differ in the
document only: a document record is written when the next point needs it, and what was read since pays for it
(`readOnto_covers`).
-/

namespace CilProbes

/-- The span as it is read back. -/
def SourceSpan.normal (s : SourceSpan) : SourceSpan :=
  if s.hidden then .hiddenIn s.document else s

/-- The point as it is read back. -/
def OffsetPoint.normal (p : OffsetPoint) : OffsetPoint :=
  { p with span := p.span.normal }

/-- The span has a line break or a character. -/
def SourceSpan.Nonempty (s : SourceSpan) : Prop :=
  s.startLine < s.endLine ∨ s.startLine = s.endLine ∧ s.startColumn < s.endColumn
  deriving Decidable

theorem SourceSpan.wellFormed_normal (s : SourceSpan) : s.normal.WellFormed := by
  unfold SourceSpan.normal
  split
  · exact fun _ => rfl
  · next hvisible => exact fun hhidden => absurd hhidden hvisible

namespace PointBlob

variable {c : Context} {p : OffsetPoint}

/-! ## Hidden points -/

theorem normal_of_visible (h : p.span.hidden = false) : p.normal = p := by
  unfold OffsetPoint.normal SourceSpan.normal
  rw [h]
  rfl

theorem normal_of_hidden (h : p.span.hidden = true) : p.normal = ⟨p.offset, .hiddenIn p.span.document⟩ := by
  unfold OffsetPoint.normal SourceSpan.normal
  rw [if_pos h]

theorem document_normal (p : OffsetPoint) : p.normal.span.document = p.span.document := by
  cases hidden : p.span.hidden with
  | false => rw [normal_of_visible hidden]
  | true =>
    rw [normal_of_hidden hidden]
    rfl

theorem after_normal (c : Context) (p : OffsetPoint) : c.after p.normal = c.after p := by
  cases hidden : p.span.hidden with
  | false => rw [normal_of_visible hidden]
  | true =>
    rw [normal_of_hidden hidden]
    unfold Context.after
    simp [SourceSpan.hiddenIn, hidden]

theorem writePoint_normal (c : Context) (p : OffsetPoint) : c.writePoint p.normal = c.writePoint p := by
  cases hidden : p.span.hidden with
  | false => rw [normal_of_visible hidden]
  | true =>
    rw [normal_of_hidden hidden]
    unfold Context.writePoint Context.writeDocument Context.writeOffset
    simp [SourceSpan.hiddenIn, hidden]

theorem writeFrom_normal (ps : List OffsetPoint) : writeFrom c (ps.map OffsetPoint.normal) = writeFrom c ps := by
  induction ps generalizing c with
  | nil => rfl
  | cons p ps ih =>
    rw [List.map_cons, writeFrom, writeFrom, writePoint_normal, after_normal, ih]

theorem encode_cons (p : OffsetPoint) (ps : List OffsetPoint) : encode (p :: ps) = (do
    return (← Field.count (p.span.document + 1).toNat) ++ (← writeFrom { document := p.span.document } (p :: ps))) :=
  rfl

theorem encode_normal (ps : List OffsetPoint) : encode (ps.map OffsetPoint.normal) = encode ps := by
  cases ps with
  | nil => rfl
  | cons p ps => rw [List.map_cons, encode_cons, encode_cons, document_normal, ← List.map_cons, writeFrom_normal]

theorem numbered_normal (p : OffsetPoint) : p.normal.span.Numbered ↔ p.span.Numbered := by
  unfold SourceSpan.Numbered
  rw [document_normal]

/--
**Reading undoes writing**: points are read back, the hidden ones without the lines and columns they had, if their
documents have numbers. The blob of a point in the last document of all is refused.
-/
theorem parse_normal {ps : List OffsetPoint} {blob : List UInt8} (h : encode ps = .ok blob) :
    parse blob =
      if ∀ p ∈ ps, p.span.Numbered then .ok (ps.map OffsetPoint.normal) else .error (.malformed .documentZero) := by
  have hwf : ∀ p ∈ ps.map OffsetPoint.normal, p.span.WellFormed := by
    intro p hp
    obtain ⟨q, -, rfl⟩ := List.mem_map.mp hp
    exact q.span.wellFormed_normal
  rw [← encode_normal] at h
  split
  · next hnumbered =>
    refine parse_encode hwf (fun p hp => ?_) h
    obtain ⟨q, hq, rfl⟩ := List.mem_map.mp hp
    exact (numbered_normal q).mpr (hnumbered q hq)
  · next hnumbered =>
    simp only [not_forall] at hnumbered
    obtain ⟨p, hp, hnot⟩ := hnumbered
    exact parse_unnumbered hwf ⟨p.normal, List.mem_map_of_mem hp, (numbered_normal p).not.mpr hnot⟩ h

/-- A hidden point with lines, then another document, a step back over lines with equal columns, and a third document. -/
theorem parse_normal_mixed :
    encode [⟨0, ⟨0, 5, 1, 5, 9, true⟩⟩, ⟨3, ⟨2, 10, 9, 10, 14, false⟩⟩, ⟨4, ⟨0, 2, 7, 4, 7, false⟩⟩,
        ⟨200, ⟨1, 3, 1, 3, 4, false⟩⟩] =
      .ok [1, 0, 0, 0, 0, 3, 3, 0, 5, 10, 9, 0, 1, 1, 2, 0, 15, 3, 0, 2, 128, 196, 0, 3, 2, 11] ∧
    parse [1, 0, 0, 0, 0, 3, 3, 0, 5, 10, 9, 0, 1, 1, 2, 0, 15, 3, 0, 2, 128, 196, 0, 3, 2, 11] =
      .ok [⟨0, .hiddenIn 0⟩, ⟨3, ⟨2, 10, 9, 10, 14, false⟩⟩, ⟨4, ⟨0, 2, 7, 4, 7, false⟩⟩,
        ⟨200, ⟨1, 3, 1, 3, 4, false⟩⟩] := by
  have h : encode [⟨0, ⟨0, 5, 1, 5, 9, true⟩⟩, ⟨3, ⟨2, 10, 9, 10, 14, false⟩⟩, ⟨4, ⟨0, 2, 7, 4, 7, false⟩⟩,
      ⟨200, ⟨1, 3, 1, 3, 4, false⟩⟩] =
      .ok [1, 0, 0, 0, 0, 3, 3, 0, 5, 10, 9, 0, 1, 1, 2, 0, 15, 3, 0, 2, 128, 196, 0, 3, 2, 11] := by
    decide +kernel
  refine ⟨h, (parse_normal h).trans ?_⟩
  rw [if_pos (by decide)]
  rfl

/-- The number of the last document of all is written as 0, which is no number of a document. -/
theorem parse_wrapped : encode [⟨0, ⟨0xFFFFFFFFFFFFFFFF, 1, 1, 1, 2, false⟩⟩] = .ok [0, 0, 0, 1, 1, 1] ∧
    parse [0, 0, 0, 1, 1, 1] = .error (.malformed .documentZero) := by
  decide +kernel

/-! ## What is read can be written -/

theorem column_ok {value : Int} {found : UInt16} (h : column value = .ok found) : (found.toNat : Int) = value := by
  unfold column at h
  split at h
  · next hrange =>
    cases h
    rw [UInt16.toNat_ofNat', Nat.mod_eq_of_lt (by omega)]
    omega
  · cases h

theorem line_ok {value : Int} {found : UInt32} (h : line value = .ok found) : (found.toNat : Int) = value := by
  unfold line at h
  split at h
  · next hrange =>
    cases h
    rw [UInt32.toNat_ofNat', Nat.mod_eq_of_lt (by omega)]
    omega
  · cases h

theorem count_of_encode {n : Nat} {out : List UInt8} (h : Compressed.encode n = .ok out) : Field.count n = .ok out := by
  have hlimit : n ≤ 0x1FFFFFFF := le_limit_of_encode h
  unfold Field.count
  rw [if_pos (by omega), h]

/-- A number that can be written is a difference. -/
theorem delta_of_encodeInt {value : Int} {out : List UInt8} (h : Compressed.encodeInt value = .ok out) :
    delta value = .ok value := by
  have hlimit : Compressed.zigzag value ≤ 0x1FFFFFFF := le_limit_of_encode h
  unfold Compressed.zigzag at hlimit
  unfold delta
  rw [if_pos (by split at hlimit <;> omega)]

section Covers

variable {cursor cursor' : Cursor}

theorem document_covers {document : UInt64} (h : readDocument cursor = .ok document cursor') :
    cursor.Covers cursor' (Field.count (document + 1).toNat) := by
  obtain ⟨n, cursor₁, hn, h⟩ := edit_bind_ok.mp h
  cases n with
  | zero => cases h
  | succ n =>
    cases h
    obtain ⟨out, hout, hlength⟩ := Reader.compressed_covers hn
    have hlimit : n + 1 ≤ 0x1FFFFFFF := le_limit_of_encode hout
    have hnumber : (UInt64.ofNat n + 1).toNat = n + 1 := by
      rw [UInt64.toNat_add, UInt64.toNat_ofNat', UInt64.toNat_one]
      omega
    refine ⟨out, ?_, hlength⟩
    rw [hnumber]
    exact count_of_encode hout

theorem start_covers {s : SourceSpan} {found : UInt32 × UInt16} (h : c.readStart cursor = .ok found cursor')
    (hline : s.startLine = found.1) (hcolumn : s.startColumn = found.2) : cursor.Covers cursor' (c.writeStart s) := by
  unfold Context.readStart at h
  unfold Context.writeStart
  rw [hline, hcolumn]
  cases hstart : c.start with
  | none =>
    rw [hstart] at h
    obtain ⟨first, cursor₁, hfirst, h⟩ := edit_bind_ok.mp h
    obtain ⟨n, cursor₂, hn, h⟩ := edit_bind_ok.mp h
    obtain ⟨left, hleft, h⟩ := ofExcept_bind_ok h
    cases h
    obtain ⟨lines, hlines, hlength₁⟩ := Reader.compressed_covers hfirst
    obtain ⟨columns, hcolumns, hlength₂⟩ := Reader.compressed_covers hn
    have hlimit : first ≤ 0x1FFFFFFF := le_limit_of_encode hlines
    have hfirst : (UInt32.ofNat first).toNat = first := by
      rw [UInt32.toNat_ofNat', Nat.mod_eq_of_lt (by omega)]
    have hleft : left.toNat = n := Int.ofNat.inj (column_ok hleft)
    refine ⟨lines ++ columns, ?_, by rw [List.length_append]; omega⟩
    simp only [hfirst, hleft, hlines, hcolumns]
    rfl
  | some last =>
    obtain ⟨lastLine, lastColumn⟩ := last
    rw [hstart] at h
    obtain ⟨down, cursor₁, hdown, h⟩ := edit_bind_ok.mp h
    obtain ⟨first, hfirst, h⟩ := ofExcept_bind_ok h
    obtain ⟨right, cursor₂, hright, h⟩ := edit_bind_ok.mp h
    obtain ⟨left, hleft, h⟩ := ofExcept_bind_ok h
    cases h
    obtain ⟨lines, hlines, hlength₁⟩ := Reader.compressedInt_covers hdown
    obtain ⟨columns, hcolumns, hlength₂⟩ := Reader.compressedInt_covers hright
    have hdown : Int.ofNat first.toNat - Int.ofNat lastLine.toNat = down := by
      have := line_ok hfirst
      simp only [Int.ofNat_eq_natCast]
      omega
    have hright : Int.ofNat left.toNat - Int.ofNat lastColumn.toNat = right := by
      have := column_ok hleft
      simp only [Int.ofNat_eq_natCast]
      omega
    refine ⟨lines ++ columns, ?_, by rw [List.length_append]; omega⟩
    refine bind_ok.mpr ⟨down, ?_, bind_ok.mpr ⟨lines, hlines, bind_ok.mpr ⟨right, ?_, bind_ok.mpr ⟨columns, hcolumns, rfl⟩⟩⟩⟩
    · rw [hdown, delta_of_encodeInt hlines]
    · rw [hright, delta_of_encodeInt hcolumns]

theorem ite_bind_ok {α β : Type} {choice : Prop} [Decidable choice] {r r' : Reader α} {f : α → Reader β} {b : β}
    (h : (if choice then r >>= f else r' >>= f) cursor = .ok b cursor') :
    ∃ a cursor₁, (if choice then r else r') cursor = .ok a cursor₁ ∧ f a cursor₁ = .ok b cursor' := by
  split at h
  · next hchoice =>
    rw [if_pos hchoice]
    exact edit_bind_ok.mp h
  · next hchoice =>
    rw [if_neg hchoice]
    exact edit_bind_ok.mp h

/-- The columns of an extent, as they are written beside its lines. -/
def writeColumns (lines : Nat) (columns : Int) : Except Fault (List UInt8) :=
  if lines = 0 then Compressed.encode columns.toNat else Compressed.encodeInt columns

theorem columns_covers {lines : Nat} {columns : Int}
    (h : (if lines = 0 then Int.ofNat <$> Reader.compressed else Reader.compressedInt) cursor = .ok columns cursor') :
    (lines = 0 → 0 ≤ columns) ∧ cursor.Covers cursor' (writeColumns lines columns) := by
  unfold writeColumns
  split at h
  · next hsame =>
    obtain ⟨n, cursor₁, hn, h⟩ := edit_bind_ok.mp h
    cases h
    rw [if_pos hsame]
    exact ⟨fun _ => Int.natCast_nonneg n, Reader.compressed_covers hn⟩
  · next hdiffer =>
    rw [if_neg hdiffer]
    exact ⟨fun hsame => absurd hsame hdiffer, Reader.compressedInt_covers h⟩

theorem writeExtent_ok {lines : Nat} {columns : Int} {front back : List UInt8}
    (hlines : p.span.startLine.toNat + lines = p.span.endLine.toNat)
    (hcolumns : p.span.startColumn.toNat + columns = p.span.endColumn.toNat) (hpos : lines = 0 → 0 < columns)
    (hfront : Compressed.encode lines = .ok front) (hback : writeColumns lines columns = .ok back) :
    writeExtent p = .ok (front ++ back) := by
  unfold writeColumns at hback
  unfold writeExtent
  have hleft : Int.ofNat p.span.endColumn.toNat - Int.ofNat p.span.startColumn.toNat = columns := by
    simp only [Int.ofNat_eq_natCast]
    omega
  have hdown : p.span.endLine.toNat - p.span.startLine.toNat = lines := by omega
  dsimp only
  rw [if_neg (by rw [UInt32.lt_iff_toNat_lt]; omega), hleft, hdown]
  refine bind_ok.mpr ⟨front, hfront, ?_⟩
  by_cases hsame : lines = 0
  · have hpos := hpos hsame
    rw [if_pos hsame] at hback
    rw [if_pos (UInt32.toNat_inj.mp (by omega)), if_neg (by omega), if_neg (by omega)]
    exact bind_ok.mpr ⟨back, hback, rfl⟩
  · rw [if_neg hsame] at hback
    rw [if_neg fun heq => hsame (by rw [heq] at hlines; omega)]
    exact bind_ok.mpr ⟨columns, delta_of_encodeInt hback, bind_ok.mpr ⟨back, hback, rfl⟩⟩

/-- What is written of a span after the offset. -/
def Context.writeSpan (c : Context) (p : OffsetPoint) : Except Fault (List UInt8) :=
  if p.span.hidden then .ok [0, 0] else do return (← writeExtent p) ++ (← c.writeStart p.span)

theorem span_covers (offset : UInt32) {s : SourceSpan} (h : c.readSpan cursor = .ok s cursor') :
    s.document = c.document ∧ cursor.Covers cursor' (c.writeSpan ⟨offset, s⟩) := by
  obtain ⟨lines, cursor₁, hlines, h⟩ := edit_bind_ok.mp h
  obtain ⟨columns, cursor₂, hcolumns, h⟩ := ite_bind_ok h
  obtain ⟨front, hfront, hlength₁⟩ := Reader.compressed_covers hlines
  obtain ⟨hnonneg, back, hback, hlength₂⟩ := columns_covers hcolumns
  unfold Context.writeSpan
  dsimp only at h
  split at h
  · next hzero =>
    cases h
    refine ⟨rfl, [0, 0], rfl, ?_⟩
    obtain ⟨rfl, rfl⟩ := hzero
    cases hfront
    cases hback
    simp only [List.length_cons, List.length_nil] at *
    omega
  · next hvisible =>
    obtain ⟨start, cursor₃, hstart, h⟩ := edit_bind_ok.mp h
    obtain ⟨endLine, hendLine, h⟩ := ofExcept_bind_ok h
    obtain ⟨endColumn, hendColumn, h⟩ := ofExcept_bind_ok h
    cases h
    have hendLine := line_ok hendLine
    have hendColumn := column_ok hendColumn
    have hextent := writeExtent_ok (p := ⟨offset, ⟨c.document, start.1, start.2, endLine, endColumn, false⟩⟩)
      (by dsimp only; omega) hendColumn.symm (by omega) hfront hback
    obtain ⟨place, hplace, hlength₃⟩ := start_covers (s := ⟨c.document, start.1, start.2, endLine, endColumn, false⟩)
      hstart rfl rfl
    refine ⟨rfl, (front ++ back) ++ place, ?_, by simp only [List.length_append]; omega⟩
    exact bind_ok.mpr ⟨front ++ back, hextent, bind_ok.mpr ⟨place, hplace, rfl⟩⟩

theorem offset_covers {difference : Nat} {offset : UInt32} {s : SourceSpan}
    (hdifference : cursor.Covers cursor' (Compressed.encode difference)) (hpoint : ¬ (c.offset.isSome ∧ difference = 0))
    (h : c.next difference = .ok offset) : cursor.Covers cursor' (c.writeOffset ⟨offset, s⟩) := by
  obtain ⟨out, hout, hlength⟩ := hdifference
  have hlimit : difference ≤ 0x1FFFFFFF := le_limit_of_encode hout
  refine ⟨out, ?_, hlength⟩
  unfold Context.next at h
  unfold Context.writeOffset
  cases hc : c.offset with
  | none =>
    rw [hc] at h
    cases h
    dsimp only
    rw [UInt32.toNat_ofNat', Nat.mod_eq_of_lt (by omega), hout]
  | some last =>
    rw [hc] at h hpoint
    dsimp only at h ⊢
    split at h
    · next hrange =>
      cases h
      have hpos : difference ≠ 0 := fun hzero => hpoint ⟨rfl, hzero⟩
      have hoffset : (UInt32.ofNat (last.toNat + difference)).toNat = last.toNat + difference := by
        rw [UInt32.toNat_ofNat', Nat.mod_eq_of_lt hrange]
      rw [if_pos (by rw [UInt32.lt_iff_toNat_lt]; omega), hoffset, Nat.add_sub_cancel_left, hout]
    · cases h

/-- A record is another document, or a point of the document in use. -/
theorem record_covers {next : Context} {found : Option OffsetPoint}
    (h : c.readRecord cursor = .ok (next, found) cursor') :
    (found = none ∧ c.offset.isSome ∧ next = { c with document := next.document } ∧
      cursor.Covers cursor' (do return (← Compressed.encode 0) ++ (← Field.count (next.document + 1).toNat))) ∨
    ∃ p, found = some p ∧ next = c.after p ∧ p.span.document = c.document ∧
      cursor.Covers cursor' (do return (← c.writeOffset p) ++ (← c.writeSpan p)) := by
  obtain ⟨difference, cursor₁, hdifference, h⟩ := edit_bind_ok.mp h
  have hcovers := Reader.compressed_covers hdifference
  split at h
  · next hdocument =>
    obtain ⟨document, cursor₂, hread, h⟩ := edit_bind_ok.mp h
    cases h
    obtain ⟨hsome, rfl⟩ := hdocument
    obtain ⟨zero, hzero, hlength₁⟩ := hcovers
    obtain ⟨count, hcount, hlength₂⟩ := document_covers hread
    refine .inl ⟨rfl, hsome, rfl, zero ++ count, ?_, by rw [List.length_append]; omega⟩
    exact bind_ok.mpr ⟨zero, hzero, bind_ok.mpr ⟨count, hcount, rfl⟩⟩
  · next hpoint =>
    obtain ⟨offset, hoffset, h⟩ := ofExcept_bind_ok h
    obtain ⟨span, cursor₂, hspan, h⟩ := edit_bind_ok.mp h
    cases h
    obtain ⟨front, hfront, hlength₁⟩ := offset_covers (s := span) hcovers hpoint hoffset
    obtain ⟨hdocument, back, hback, hlength₂⟩ := span_covers offset hspan
    refine .inr ⟨⟨offset, span⟩, rfl, rfl, hdocument, front ++ back, ?_, by rw [List.length_append]; omega⟩
    exact bind_ok.mpr ⟨front, hfront, bind_ok.mpr ⟨back, hback, rfl⟩⟩

theorem writeFrom_ok {ps : List OffsetPoint} {document span more : List UInt8} (hdocument : c.writeDocument p = .ok document)
    (hspan : (do return (← c.writeOffset p) ++ (← c.writeSpan p)) = Except.ok span)
    (hmore : writeFrom (c.after p) ps = .ok more) : writeFrom c (p :: ps) = .ok (document ++ span ++ more) := by
  obtain ⟨offset, hoffset, hspan⟩ := bind_ok.mp hspan
  obtain ⟨rest, hrest, hspan⟩ := bind_ok.mp hspan
  cases hspan
  refine bind_ok.mpr ⟨document ++ (offset ++ rest), ?_, bind_ok.mpr ⟨more, hmore, rfl⟩⟩
  refine bind_ok.mpr ⟨document, hdocument, bind_ok.mpr ⟨offset, hoffset, ?_⟩⟩
  unfold Context.writeSpan at hrest
  split at hrest
  · next hhidden =>
    cases hrest
    rw [if_pos hhidden, List.append_assoc]
    rfl
  · next hvisible =>
    obtain ⟨extent, hextent, hrest⟩ := bind_ok.mp hrest
    obtain ⟨start, hstart, hrest⟩ := bind_ok.mp hrest
    cases hrest
    rw [if_neg hvisible]
    refine bind_ok.mpr ⟨extent, hextent, bind_ok.mpr ⟨start, hstart, ?_⟩⟩
    simp only [List.append_assoc]
    rfl

/-- The document in use can be written in front of the next point, in at most `paid` bytes, where the writer is still at
`written`. -/
def Context.Paid (c : Context) (written : UInt64) (paid : Nat) : Prop :=
  ∃ out, (if c.document = written then .ok [] else
    do return (← Compressed.encode 0) ++ (← Field.count (c.document + 1).toNat)) = Except.ok out ∧ out.length ≤ paid

/-- The points can be written in at most `size` bytes, where the writer is still at `written`. -/
structure Context.Fits (c : Context) (written : UInt64) (size : Nat) (ps : List OffsetPoint) : Prop where
  bytes : ∃ bytes, writeFrom { c with document := written } ps = .ok bytes ∧ bytes.length ≤ size
  first : c.offset = none → ∀ p ∈ ps.head?, p.span.document = c.document

theorem Context.Fits.nil (c : Context) (written : UInt64) (size : Nat) : c.Fits written size [] where
  bytes := ⟨[], rfl, Nat.zero_le size⟩
  first := fun _ _ hp => by cases hp

/-- A point is paid by its record, and its document by what was paid before. -/
theorem Context.Fits.cons {written : UInt64} {paid size : Nat} {ps : List OffsetPoint} {cursor₁ : Cursor}
    (hpaid : c.Paid written paid) (hdocument : p.span.document = c.document)
    (hspan : cursor.Covers cursor₁ (do return (← c.writeOffset p) ++ (← c.writeSpan p)))
    (hrest : (c.after p).Fits p.span.document cursor₁.rest.length ps) (hsize : size = paid + cursor.rest.length) :
    c.Fits written size (p :: ps) where
  bytes := by
    obtain ⟨document, hout, hlength₁⟩ := hpaid
    obtain ⟨span, hspan, hlength₂⟩ := hspan
    obtain ⟨more, hmore, hlength₃⟩ := hrest.bytes
    rw [← hdocument] at hout
    exact ⟨document ++ span ++ more, writeFrom_ok hout hspan hmore, by simp only [List.length_append]; omega⟩
  first := fun _ q hq => by
    cases hq
    exact hdocument

/-- The points that are read can be written in the bytes that are left, and what was paid before. -/
theorem readOnto_fits {written : UInt64} {fuel paid : Nat} {done ps : List OffsetPoint} (hpaid : c.Paid written paid)
    (h : readOnto fuel c done cursor = .ok ps cursor') :
    ∃ new, ps = done.reverse ++ new ∧ c.Fits written (paid + cursor.rest.length) new := by
  induction fuel generalizing c written paid done cursor with
  | zero =>
    cases h
    exact ⟨[], (List.append_nil _).symm, .nil ..⟩
  | succ fuel ih =>
    obtain ⟨last, cursor₁, hatEnd, h⟩ := edit_bind_ok.mp h
    cases hatEnd
    split at h
    · cases h
      exact ⟨[], (List.append_nil _).symm, .nil ..⟩
    · obtain ⟨⟨next, found⟩, cursor₂, hrecord, h⟩ := edit_bind_ok.mp h
      rcases record_covers hrecord with ⟨rfl, hsome, hnext, out, hout, hlength⟩ | ⟨p, rfl, rfl, hdocument, hspan⟩
      · -- the document in use now is paid by this record alone, whatever was paid for the one before
        have hpaid : next.Paid written out.length := by
          unfold Context.Paid
          split
          · exact ⟨[], rfl, Nat.zero_le _⟩
          · exact ⟨out, hout, Nat.le_refl _⟩
        obtain ⟨new, hps, ⟨bytes, hbytes, hsize⟩, -⟩ := ih hpaid h
        rw [hnext] at hbytes
        refine ⟨new, hps, ⟨bytes, hbytes, by omega⟩, fun hnone => ?_⟩
        rw [hnone] at hsome
        cases hsome
      · have hpaid' : (c.after p).Paid p.span.document 0 := ⟨[], if_pos rfl, Nat.le_refl 0⟩
        obtain ⟨new, hps, hfits⟩ := ih hpaid' h
        rw [Nat.zero_add] at hfits
        refine ⟨p :: new, ?_, .cons hpaid hdocument hspan hfits rfl⟩
        rw [hps, List.reverse_cons, List.append_assoc]
        rfl

end Covers

/-! ## Whole blobs -/

/-- The points of a blob can be written in no more bytes. -/
theorem encode_of_parse {blob : List UInt8} {ps : List OffsetPoint} (h : parse blob = .ok ps) :
    ∃ written, encode ps = .ok written ∧ written.length ≤ blob.length := by
  unfold parse at h
  split at h
  · cases h
    exact ⟨[], rfl, Nat.zero_le _⟩
  · obtain ⟨cursor, hrun⟩ := Reader.run_ok h
    obtain ⟨document, cursor₁, hdocument, hrun⟩ := edit_bind_ok.mp hrun
    obtain ⟨count, hcount, hlength⟩ := document_covers hdocument
    have hpaid : Context.Paid { document } document 0 := ⟨[], if_pos rfl, Nat.le_refl 0⟩
    obtain ⟨new, rfl, ⟨bytes, hbytes, hsize⟩, hfirst⟩ := readOnto_fits hpaid hrun
    have hblob : (Cursor.start blob).rest.length = blob.length := rfl
    cases ps with
    | nil => exact ⟨[], rfl, Nat.zero_le _⟩
    | cons p ps =>
      have hp : p.span.document = document := hfirst rfl p rfl
      refine ⟨count ++ bytes, ?_, by rw [List.length_append]; omega⟩
      rw [encode_cons, hp]
      exact bind_ok.mpr ⟨count, hcount, bind_ok.mpr ⟨bytes, hbytes, rfl⟩⟩

theorem nonempty_of_writeExtent {out : List UInt8} (h : writeExtent p = .ok out) : p.span.Nonempty := by
  unfold writeExtent at h
  unfold SourceSpan.Nonempty
  dsimp only at h
  split at h
  · cases h
  · next horder =>
    obtain ⟨lines, hlines, h⟩ := bind_ok.mp h
    split at h
    · next hsame =>
      split at h
      · cases h
      · split at h
        · cases h
        · next hneg hzero =>
          simp only [Int.ofNat_eq_natCast] at hneg hzero
          exact .inr ⟨hsame.symm, UInt16.lt_iff_toNat_lt.mpr (by omega)⟩
    · next hdiffer =>
      have hne : p.span.startLine.toNat ≠ p.span.endLine.toNat := fun heq => hdiffer (UInt32.toNat_inj.mp heq.symm)
      rw [UInt32.lt_iff_toNat_lt] at horder
      exact .inl (UInt32.lt_iff_toNat_lt.mpr (by omega))

/-- A visible point that can be written is not empty. -/
theorem nonempty_of_writeFrom {ps : List OffsetPoint} {bytes : List UInt8} (h : writeFrom c ps = .ok bytes) :
    ∀ p ∈ ps, p.span.hidden = false → p.span.Nonempty := by
  induction ps generalizing c bytes with
  | nil => exact fun _ hp => absurd hp List.not_mem_nil
  | cons p ps ih =>
    obtain ⟨document, offset, span, more, hdocument, hoffset, hspan, hmore, rfl⟩ := writeFrom_cons h
    refine List.forall_mem_cons.mpr ⟨fun hvisible => ?_, ih hmore⟩
    rcases hspan with ⟨hhidden, -⟩ | ⟨-, extent, start, hextent, -⟩
    · rw [hvisible] at hhidden
      cases hhidden
    · exact nonempty_of_writeExtent hextent

theorem nonempty_of_encode {ps : List OffsetPoint} {blob : List UInt8} (h : encode ps = .ok blob) :
    ∀ p ∈ ps, p.span.hidden = false → p.span.Nonempty := by
  cases ps with
  | nil => exact fun _ hp => absurd hp List.not_mem_nil
  | cons p ps =>
    obtain ⟨count, hcount, h⟩ := bind_ok.mp h
    obtain ⟨bytes, hbytes, h⟩ := bind_ok.mp h
    exact nonempty_of_writeFrom hbytes

/-- **Writing again is no longer**: the points of every blob that is read lie at increasing offsets, the visible ones are
not empty, and they are written in no more bytes, from which they are read again. -/
theorem encode_parsed {blob : List UInt8} {ps : List OffsetPoint} (h : parse blob = .ok ps) :
    (∃ written, encode ps = .ok written ∧ parse written = .ok ps ∧ written.length ≤ blob.length) ∧
      ps.Pairwise (fun a b => a.offset < b.offset) ∧ ∀ p ∈ ps, p.span.hidden = false → p.span.Nonempty := by
  obtain ⟨written, hwritten, hlength⟩ := encode_of_parse h
  have hordered := ordered_of_parse h
  have hread : parse written = .ok ps := parse_encode hordered.spans hordered.numbered hwritten
  exact ⟨⟨written, hwritten, hread, hlength⟩, hordered.increasing, nonempty_of_encode hwritten⟩

/-- Padded integers, a document record that another one follows, and one at the end. -/
theorem encode_parsed_padded :
    parse [0x80, 1, 0x80, 0, 0, 0x80, 4, 5, 0xC0, 0, 0, 9, 0, 3, 0, 2, 6, 1, 0x80, 0, 2, 0x80, 3, 0, 5] =
      .ok [⟨0, ⟨0, 5, 9, 5, 13, false⟩⟩, ⟨6, ⟨1, 6, 7, 7, 7, false⟩⟩] ∧
    ∃ written, encode [⟨0, ⟨0, 5, 9, 5, 13, false⟩⟩, ⟨6, ⟨1, 6, 7, 7, 7, false⟩⟩] = .ok written ∧
      parse written = .ok [⟨0, ⟨0, 5, 9, 5, 13, false⟩⟩, ⟨6, ⟨1, 6, 7, 7, 7, false⟩⟩] ∧ written.length ≤ 25 := by
  have h : parse [0x80, 1, 0x80, 0, 0, 0x80, 4, 5, 0xC0, 0, 0, 9, 0, 3, 0, 2, 6, 1, 0x80, 0, 2, 0x80, 3, 0, 5] =
      .ok [⟨0, ⟨0, 5, 9, 5, 13, false⟩⟩, ⟨6, ⟨1, 6, 7, 7, 7, false⟩⟩] := by
    decide +kernel
  exact ⟨h, (encode_parsed h).1⟩

end PointBlob

end CilProbes
