import CilProbes.Proofs.Machine.Bytes
import CilProbes.Proofs.Symbols.File
import CilProbes.Proofs.Symbols.NormalForm

/-!
# Scanning symbol files

Symbol files as a machine reads them. Offsets add up in words of 32 bits, and lines and columns in signed words of 64 bits
before they are compared with their own range. Documents are numbered from 1 in a blob and in the texts of faults, and
from 0 in memory.
-/

namespace CilProbes.Machine

open PointBlob (Context)

variable {α : Type}

/-! ## Sequence points -/

/-- The index of a document, from its number. -/
def documentIndex (n : Nat) : Checked UInt64 :=
  match sub n 1 with
  | some index => pure (UInt64.ofNat index)
  | none => throw (.malformed .documentZero)

def document : Scan UInt64 := do
  documentIndex (← compressed)

/-- The offset of the next point. -/
def nextOffset (c : Context) (difference : Nat) : Checked UInt32 :=
  match c.offset with
  | none => return UInt32.ofNat difference
  | some last => do return UInt32.ofNat (← addOr (.malformed .pointOverflow) 32 last.toNat difference)

/-- A line at a distance from another one. -/
def lineFrom (start distance : Int) : Checked UInt32 := do
  MonadExcept.ofExcept (PointBlob.line (← addSigned 64 start distance))

/-- A column at a distance from another one. -/
def columnFrom (start distance : Int) : Checked UInt16 := do
  MonadExcept.ofExcept (PointBlob.column (← addSigned 64 start distance))

/-- The start of a visible point. -/
def spanStart (c : Context) : Scan (UInt32 × UInt16) := do
  match c.start with
  | none =>
    let first ← compressed
    let left ← (MonadExcept.ofExcept (PointBlob.column (← compressed)) : Checked UInt16)
    return (UInt32.ofNat first, left)
  | some (lastLine, lastColumn) =>
    let first ← lineFrom lastLine.toNat (← compressedInt)
    let left ← columnFrom lastColumn.toNat (← compressedInt)
    return (first, left)

/-- The span of a point after its offset. -/
def span (c : Context) : Scan SourceSpan := do
  let lines ← compressed
  let columns ← if lines = 0 then (do return Int.ofNat (← compressed)) else compressedInt
  if lines = 0 ∧ columns = 0 then return SourceSpan.hiddenIn c.document
  let (startLine, startColumn) ← spanStart c
  let endLine ← lineFrom startLine.toNat lines
  let endColumn ← columnFrom startColumn.toNat columns
  return { document := c.document, startLine, startColumn, endLine, endColumn, hidden := false }

/-- A record: another document, or a point. -/
def record (c : Context) : Scan (Context × Option OffsetPoint) := do
  let difference ← compressed
  if c.offset.isSome ∧ difference = 0 then
    return ({ c with document := ← document }, none)
  let offset ← nextOffset c difference
  let point : OffsetPoint := { offset, span := ← span c }
  return (c.after point, some point)

/-- The context after one more record, and the points before it with its point in front. -/
def next (found : Context × List OffsetPoint) : Scan (Context × List OffsetPoint) := do
  match ← record found.1 with
  | (context, some point) => return (context, point :: found.2)
  | (context, none) => return (context, found.2)

def points (blob : List UInt8) : Checked (List OffsetPoint) :=
  if blob.isEmpty then return []
  else
    Scan.runFrom (do
      let document ← document
      let found ← untilEnd next (blob.length + 1) ({ document }, [])
      return found.2.reverse) blob 0

/-! ## Files -/

/-- The record of a method, in a file with `documents` documents. -/
def methodRecord (documents : Nat) : Scan MethodRecord := do
  let token : Token := ⟨← uint32⟩
  let points ← points (← blob)
  match points.find? fun p => documents ≤ p.span.document.toNat with
  | some p =>
    let _ ← add sizeBits p.span.document.toNat 1
    throw (.malformed (.recordDocument token p.span.document))
  | none => return { token, points }

def symbolFile : Scan SymbolFile := do
  let found ← uint32
  if found ≠ SymbolFile.magic then throw (.malformed (.symbolsMagic found))
  let found ← uint16
  if found ≠ SymbolFile.version then throw (.malformed (.symbolsVersion found))
  let documents ← list string
  let methods ← list (methodRecord documents.length)
  return { documents, methods }

def parseSymbols (data : List UInt8) : Checked SymbolFile :=
  symbolFile.runFrom data 0

/-! ## Staying in range -/

theorem follows_document : Follows document PointBlob.readDocument := by
  refine follows_compressed.bind fun n => ?_
  cases n with
  | zero => exact .fail _
  | succ n => exact .pure (UInt64.ofNat n)

theorem run_nextOffset (c : Context) {difference : Nat} :
    (nextOffset c difference).run = some (c.next difference) := by
  unfold nextOffset Context.next
  cases c.offset with
  | none => rfl
  | some last =>
    have hsum := run_addOr (.malformed .pointOverflow) 32 last.toNat difference
    dsimp only
    split
    · next h =>
      rw [if_pos (show last.toNat + difference < 2 ^ 32 from h)] at hsum
      exact run_ok_bind hsum rfl
    · next h =>
      rw [if_neg (show ¬ last.toNat + difference < 2 ^ 32 from h)] at hsum
      exact run_error_bind hsum

theorem compressedInt_bounds {v : Int} {c c' : Cursor} (h : Reader.compressedInt c = .ok v c') :
    -2 ^ 29 ≤ v ∧ v < 2 ^ 29 := by
  obtain ⟨n, c₁, hn, h⟩ := edit_bind_ok.mp h
  cases h
  have hlt := compressed_lt hn
  unfold Compressed.unzigzag
  split <;> simp only [Int.ofNat_eq_natCast] <;> omega

theorem run_lineFrom {start : UInt32} {distance : Int} (hlow : -2 ^ 29 ≤ distance) (hhigh : distance < 2 ^ 29) :
    (lineFrom start.toNat distance).run = some (PointBlob.line (start.toNat + distance)) := by
  have hstart := start.toNat_lt
  exact run_lift_bind (signed_eq (by omega) (by omega)) (run_ofExcept _)

theorem run_columnFrom {start : UInt16} {distance : Int} (hlow : -2 ^ 29 ≤ distance) (hhigh : distance < 2 ^ 29) :
    (columnFrom start.toNat distance).run = some (PointBlob.column (start.toNat + distance)) := by
  have hstart := start.toNat_lt
  exact run_lift_bind (signed_eq (by omega) (by omega)) (run_ofExcept _)

theorem follows_spanStart (c : Context) : Follows (spanStart c) c.readStart := by
  unfold spanStart Context.readStart
  cases c.start with
  | none =>
    refine follows_compressed.bind fun first => follows_compressed.bind fun n => ?_
    exact (Follows.ofExcept (run_ofExcept _)).bind_pure
  | some last =>
    obtain ⟨lastLine, lastColumn⟩ := last
    refine follows_compressedInt.bind_such (fun _ _ _ => compressedInt_bounds) fun lines hlines => ?_
    refine (Follows.ofExcept (run_lineFrom hlines.1 hlines.2)).bind fun first => ?_
    refine follows_compressedInt.bind_such (fun _ _ _ => compressedInt_bounds) fun columns hcolumns => ?_
    exact (Follows.ofExcept (run_columnFrom hcolumns.1 hcolumns.2)).bind_pure

theorem follows_span (c : Context) : Follows (span c) c.readSpan := by
  have hrest {lines : Nat} {columns : Int} (hlines : lines < 2 ^ 29) (hlow : -2 ^ 29 ≤ columns) (hhigh : columns < 2 ^ 29) :
      Follows (do
        let (startLine, startColumn) ← spanStart c
        let endLine ← lineFrom startLine.toNat lines
        let endColumn ← columnFrom startColumn.toNat columns
        return ({ document := c.document, startLine, startColumn, endLine, endColumn, hidden := false } : SourceSpan))
      (do
        let (startLine, startColumn) ← c.readStart
        let endLine ← Edit.ofExcept (PointBlob.line (startLine.toNat + lines))
        let endColumn ← Edit.ofExcept (PointBlob.column (startColumn.toNat + columns))
        return { document := c.document, startLine, startColumn, endLine, endColumn, hidden := false }) := by
    refine (follows_spanStart c).bind fun start => ?_
    refine (Follows.ofExcept (run_lineFrom (by omega) (by omega))).bind fun endLine => ?_
    exact (Follows.ofExcept (run_columnFrom hlow hhigh)).bind_pure
  refine follows_compressed.bind_such (fun _ _ _ => compressed_lt) fun lines hlines => ?_
  dsimp only
  by_cases hzero : lines = 0
  · rw [if_pos hzero, if_pos hzero, map_eq_pure_bind]
    refine (follows_compressed.bind_pure).bind_such (P := fun v => 0 ≤ v ∧ v < 2 ^ 29) ?_ fun columns hcolumns => ?_
    · intro cursor v cursor' h
      obtain ⟨n, cursor₁, hn, h⟩ := edit_bind_ok.mp h
      cases h
      have hlt := compressed_lt hn
      simp only [Int.ofNat_eq_natCast]
      omega
    · split
      · exact .pure _
      · exact hrest hlines (by omega) hcolumns.2
  · rw [if_neg hzero, if_neg hzero]
    refine follows_compressedInt.bind_such (fun _ _ _ => compressedInt_bounds) fun columns hcolumns => ?_
    split
    · exact .pure _
    · exact hrest hlines hcolumns.1 hcolumns.2

theorem follows_record (c : Context) : Follows (record c) c.readRecord := by
  refine follows_compressed.bind fun difference => ?_
  split
  · exact follows_document.bind_pure
  · exact (Follows.ofExcept (run_nextOffset c)).bind fun offset => (follows_span c).bind_pure

/-- A record takes at least one byte. -/
theorem record_advances {c next : Context} {found : Option OffsetPoint} {cursor cursor' : Cursor}
    (h : c.readRecord cursor = .ok (next, found) cursor') : cursor'.remaining < cursor.remaining := by
  rw [← cursor.length_rest, ← cursor'.length_rest]
  rcases PointBlob.record_covers h with ⟨-, -, -, out, hout, hlength⟩ | ⟨p, -, -, -, out, hout, hlength⟩
  · obtain ⟨zero, hzero, hout⟩ := bind_ok.mp hout
    obtain ⟨count, -, hout⟩ := bind_ok.mp hout
    cases hout
    have hpos := List.length_pos_iff.mpr (PointBlob.encode_ne_nil hzero)
    rw [List.length_append] at hlength
    omega
  · obtain ⟨offset, hoffset, hout⟩ := bind_ok.mp hout
    obtain ⟨rest, -, hout⟩ := bind_ok.mp hout
    cases hout
    have hpos := List.length_pos_iff.mpr (PointBlob.writeOffset_ne_nil hoffset)
    rw [List.length_append] at hlength
    omega

/-- The step that `PointBlob.readOnto` repeats. -/
def readNext (found : Context × List OffsetPoint) : Reader (Context × List OffsetPoint) := do
  match ← found.1.readRecord with
  | (context, some point) => return (context, point :: found.2)
  | (context, none) => return (context, found.2)

theorem follows_next (found : Context × List OffsetPoint) : Follows (next found) (readNext found) := by
  refine (follows_record found.1).bind fun read => ?_
  obtain ⟨context, point⟩ := read
  cases point with
  | none => exact .pure _
  | some point => exact .pure _

theorem readNext_advances {found found' : Context × List OffsetPoint} {c c' : Cursor} (h : readNext found c = .ok found' c') :
    c'.remaining < c.remaining := by
  obtain ⟨⟨context, point⟩, c₁, hrecord, h⟩ := edit_bind_ok.mp h
  cases point with
  | none => cases h; exact record_advances hrecord
  | some point => cases h; exact record_advances hrecord

theorem readOnto_succ {n : Nat} {found : Context × List OffsetPoint} {c : Cursor} (hrest : c.rest ≠ []) :
    PointBlob.readOnto (n + 1) found.1 found.2 c = (readNext found >>= fun found => PointBlob.readOnto n found.1 found.2) c := by
  have hatEnd : Reader.atEnd c = .ok false c := by
    unfold Reader.atEnd
    rw [List.isEmpty_eq_false_iff.mpr hrest]
  rw [PointBlob.readOnto, edit_bind_of_ok hatEnd, readNext, bind_assoc]
  cases hrecord : found.1.readRecord c with
  | error fault c' => exact (edit_bind_of_error hrecord).trans (edit_bind_of_error hrecord).symm
  | ok read c' =>
    refine (edit_bind_of_ok hrecord).trans (Eq.trans ?_ (edit_bind_of_ok hrecord).symm)
    obtain ⟨context, point⟩ := read
    cases point <;> rfl

theorem run_points {blob : List UInt8} (hblob : blob.length < dataLimit) :
    (points blob).run = some (PointBlob.parse blob) := by
  unfold points PointBlob.parse
  cases hempty : blob.isEmpty with
  | true => rfl
  | false =>
    refine FollowsAt.run_start ((follows_document _ hblob).bind fun document c hdocument hdata => ?_)
    have hsize : c.size = blob.length := by rw [c.size_eq, hdata]; rfl
    have hleft : c.remaining ≤ blob.length := hsize ▸ Nat.sub_le c.size c.pos
    exact follows_untilEnd (r := fun n found => PointBlob.readOnto n found.1 found.2) follows_next
      (fun _ _ _ _ => readNext_advances) (fun n found _ => PointBlob.readOnto_nil n found.2)
      (fun _ _ _ => readOnto_succ) ({ document }, []) (hsize ▸ hblob) (Nat.lt_succ_of_le hleft) hleft

/-! ### Files -/

theorem document_lt_of_parse {blob : List UInt8} {ps : List OffsetPoint} (h : PointBlob.parse blob = .ok ps) :
    ∀ p ∈ ps, p.span.document.toNat < dataLimit :=
  fun p hp => Nat.lt_trans ((PointBlob.ordered_of_parse h).documents p hp) (by decide)

/-- The documents of the points of a file that is read have numbers. -/
theorem document_lt_of_symbols {data : List UInt8} {symbols : SymbolFile} (h : SymbolFile.parse data = .ok symbols) :
    ∀ r ∈ symbols.methods, ∀ p ∈ r.points, p.span.document.toNat < dataLimit := by
  intro r hr
  obtain ⟨c, c', h⟩ := (SymbolFile.read_of_parse h).2 r hr
  obtain ⟨token, c₁, htoken, h⟩ := edit_bind_ok.mp h
  obtain ⟨blob, c₂, hblob, h⟩ := edit_bind_ok.mp h
  obtain ⟨points, c₃, hpoints, h⟩ := edit_bind_ok.mp h
  cases hfind : points.find? fun p => decide (symbols.documents.length ≤ p.span.document.toNat) with
  | some p =>
    rw [hfind] at h
    cases h
  | none =>
    rw [hfind] at h
    cases h
    exact document_lt_of_parse (ofExcept_ok hpoints).1

theorem follows_methodRecord (documents : Nat) : Follows (methodRecord documents) (SymbolFile.readRecord documents) := by
  refine follows_uint32.bind fun token => follows_blob.bind_such (fun _ _ _ => blob_lt) fun blob hblob => ?_
  refine (Follows.ofExcept (run_points hblob)).bind_such
    (fun _ _ _ h => document_lt_of_parse (ofExcept_ok h).1) fun points hpoints => ?_
  cases hfind : points.find? fun p => decide (documents ≤ p.span.document.toNat) with
  | none => exact .pure _
  | some p =>
    have hdocument := hpoints p (List.mem_of_find?_eq_some hfind)
    have hnumber : add sizeBits p.span.document.toNat 1 = some (p.span.document.toNat + 1) :=
      add_eq (Nat.lt_of_le_of_lt hdocument (by decide))
    exact fun c _ => FollowsAt.lift_bind hnumber (.fail _)

theorem follows_symbolFile : Follows symbolFile SymbolFile.reader := by
  refine follows_uint32.bind fun found => ?_
  dsimp only
  split
  · exact .fail_bind _
  refine follows_uint16.bind fun found => ?_
  split
  · exact .fail_bind _
  exact (follows_list follows_string).bind fun documents => (follows_list (follows_methodRecord documents.length)).bind_pure

/-- A symbol file is read in range. -/
theorem run_parseSymbols {data : List UInt8} (hdata : data.length < dataLimit) :
    (parseSymbols data).run = some (SymbolFile.parse data) :=
  follows_symbolFile.run hdata

end CilProbes.Machine
