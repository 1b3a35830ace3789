import CilProbes.Source.Span
import Mathlib.Algebra.Ring.Nat

/-!
# The text of a span as a piece of the file

A place of a file, given by line and column, is a position in its lines joined by line feeds (`SourceText.position`).
From a position the joined lines go on with the rest of its line and the lines behind it (`drop_joined`), and up to one
they are the lines in front of it and the first part of its own (`take_joined`). So the text of a span is what lies
between the positions of its two ends (`extract_eq_slice`).
-/

namespace CilProbes

namespace SourceText

/-- The lines of a file in one text. -/
def joined (lines : List (List Char)) : List Char :=
  ['\n'].intercalate lines

/-- Where a line begins in the joined lines: behind those in front of it, each with its line feed. -/
def lineStart (lines : List (List Char)) (place : Nat) : Nat :=
  ((lines.take place).map fun line => line.length + 1).sum

/-- Where a line and a column, both counted from 1, are in the joined lines. Columns end with their line, and lines that
the file lacks are at its end. -/
def position (lines : List (List Char)) (line : UInt32) (column : UInt16) : Nat :=
  match lines[line.toNat - 1]? with
  | some text => lineStart lines (line.toNat - 1) + min (max column.toNat 1 - 1) text.length
  | none => (joined lines).length

variable {lines rest : List (List Char)} {line : List Char} {place more n : Nat}

theorem joined_singleton : joined [line] = line :=
  List.intercalate_singleton

theorem joined_cons_of_ne_nil (h : lines ≠ []) : joined (line :: lines) = (line ++ ['\n']) ++ joined lines := by
  obtain ⟨next, rest, rfl⟩ := List.exists_cons_of_ne_nil h
  exact List.intercalate_cons_cons

theorem lineStart_cons_succ :
    lineStart (line :: rest) (place + 1) = (line ++ ['\n']).length + lineStart rest place := by
  unfold lineStart
  rw [List.take_succ_cons, List.map_cons, List.sum_cons, List.length_append]
  rfl

theorem lineStart_add : lineStart lines (place + more) = lineStart lines place + lineStart (lines.drop place) more := by
  unfold lineStart
  rw [List.take_add, List.map_append, List.sum_append]

/-! ## What is behind a position -/

/-- From where a line begins, the joined lines are those from this line on. -/
theorem drop_lineStart (h : place < lines.length) :
    (joined lines).drop (lineStart lines place) = joined (lines.drop place) := by
  induction place generalizing lines with
  | zero => rfl
  | succ place ih =>
    cases lines with
    | nil => exact absurd h (Nat.not_lt_zero _)
    | cons first lines =>
      have hplace : place < lines.length := Nat.lt_of_succ_lt_succ h
      rw [lineStart_cons_succ, joined_cons_of_ne_nil (List.ne_nil_of_length_pos (by omega)), List.drop_length_add_append,
        ih hplace, List.drop_succ_cons]

/-- Within the first line, its rest is left, and the other lines. -/
theorem drop_joined_cons (h : n ≤ line.length) : (joined (line :: rest)).drop n = joined (line.drop n :: rest) := by
  cases rest with
  | nil => rw [joined_singleton, joined_singleton]
  | cons next rest =>
    have hne : next :: rest ≠ [] := List.cons_ne_nil next rest
    rw [joined_cons_of_ne_nil hne, joined_cons_of_ne_nil hne, List.append_assoc, List.append_assoc,
      List.drop_append_of_le_length h]

/-- From a place of a line on, the joined lines are the rest of this line and the lines behind it. -/
theorem drop_joined (h : lines[place]? = some line) (hn : n ≤ line.length) :
    (joined lines).drop (lineStart lines place + n) = joined (line.drop n :: lines.drop (place + 1)) := by
  obtain ⟨hplace, rfl⟩ := List.getElem?_eq_some_iff.mp h
  rw [← List.drop_drop, drop_lineStart hplace, List.drop_eq_getElem_cons hplace, drop_joined_cons hn]

/-! ## What is in front of a position -/

theorem take_joined_cons (h : n ≤ line.length) : (joined (line :: rest)).take n = line.take n := by
  cases rest with
  | nil => rw [joined_singleton]
  | cons next rest =>
    rw [joined_cons_of_ne_nil (List.cons_ne_nil next rest), List.append_assoc, List.take_append_of_le_length h]

/-- Up to a place of a line, the joined lines are those in front of it and the first part of this line. -/
theorem take_joined (h : lines[place]? = some line) (hn : n ≤ line.length) :
    (joined lines).take (lineStart lines place + n) = joined (lines.take place ++ [line.take n]) := by
  induction place generalizing lines with
  | zero =>
    obtain ⟨first, rest, rfl⟩ := List.exists_cons_of_ne_nil (List.ne_nil_of_mem (List.mem_of_getElem? h))
    cases h
    have hstart : lineStart (line :: rest) 0 + n = n := Nat.zero_add n
    rw [hstart, take_joined_cons hn, List.take_zero, List.nil_append, joined_singleton]
  | succ place ih =>
    obtain ⟨first, rest, rfl⟩ := List.exists_cons_of_ne_nil (List.ne_nil_of_mem (List.mem_of_getElem? h))
    have hrest : rest[place]? = some line := h
    have hne : rest ≠ [] := List.ne_nil_of_mem (List.mem_of_getElem? hrest)
    rw [lineStart_cons_succ, Nat.add_assoc, joined_cons_of_ne_nil hne, List.take_length_add_append, ih hrest,
      List.take_succ_cons, List.cons_append, joined_cons_of_ne_nil (by simp)]

/-! ## Spans -/

section Spans

variable {final : List Char} {first last left right : Nat}

theorem drop_min_length (line : List Char) (n : Nat) : line.drop (min n line.length) = line.drop n := by
  rcases Nat.le_total n line.length with h | h
  · rw [Nat.min_eq_left h]
  · rw [Nat.min_eq_right h, List.drop_length, List.drop_eq_nil_of_le h]

theorem take_min_length (line : List Char) (n : Nat) : line.take (min n line.length) = line.take n := by
  rw [List.take_eq_take_iff, Nat.min_assoc, Nat.min_self]

/-- Between two places of one line is a piece of this line. -/
theorem slice_joined_line (h : lines[place]? = some line) (left right : Nat) :
    slice (joined lines) (lineStart lines place + min left line.length) (lineStart lines place + min right line.length) =
      slice line left right := by
  unfold slice
  rw [drop_joined h (Nat.min_le_right ..), drop_min_length, Nat.add_sub_add_left,
    take_joined_cons (by rw [List.length_drop]; omega), List.take_eq_take_iff, List.length_drop]
  omega

/-- Between places of two lines are the rest of the first one, the lines between them, and the first part of the last. -/
theorem slice_joined_lines (hfirst : lines[first]? = some line) (hlast : lines[last]? = some final) (h : first < last)
    (left right : Nat) :
    slice (joined lines) (lineStart lines first + min left line.length) (lineStart lines last + min right final.length) =
      joined (line.drop left :: ((lines.drop (first + 1)).take (last - (first + 1)) ++ [final.take right])) := by
  obtain ⟨more, rfl⟩ : ∃ more, last = first + (more + 1) := ⟨last - first - 1, by omega⟩
  have hmore : first + (more + 1) - (first + 1) = more := by omega
  have hfinal : (line.drop left :: lines.drop (first + 1))[more + 1]? = some final := by
    rw [List.getElem?_cons_succ, List.getElem?_drop, ← hlast, Nat.add_assoc, Nat.add_comm 1]
  have hstart : lineStart lines (first + (more + 1)) =
      lineStart lines first + ((line ++ ['\n']).length + lineStart (lines.drop (first + 1)) more) := by
    obtain ⟨hlt, rfl⟩ := List.getElem?_eq_some_iff.mp hfirst
    rw [lineStart_add, List.drop_eq_getElem_cons hlt, lineStart_cons_succ]
  have hsize : lineStart lines (first + (more + 1)) + min right final.length -
      (lineStart lines first + min left line.length) =
        lineStart (line.drop left :: lines.drop (first + 1)) (more + 1) + min right final.length := by
    rw [hstart, lineStart_cons_succ, List.length_append, List.length_append, List.length_drop]
    omega
  unfold slice
  rw [hsize, drop_joined hfirst (Nat.min_le_right ..), drop_min_length, take_joined hfinal (Nat.min_le_right ..),
    take_min_length, hmore, List.take_succ_cons, List.cons_append]

/-- From a place of a line up to the end are the rest of this line and all lines behind it. -/
theorem slice_joined_end (hfirst : lines[first]? = some line) (left : Nat) :
    slice (joined lines) (lineStart lines first + min left line.length) (joined lines).length =
      joined (line.drop left :: lines.drop (first + 1)) := by
  unfold slice
  rw [List.take_of_length_le (by rw [List.length_drop]), drop_joined hfirst (Nat.min_le_right ..), drop_min_length]

end Spans

/-- The places of a column are counted from 0. -/
theorem column_eq (column : UInt16) : max column.toNat 1 - 1 = column.toNat - 1 := by
  omega

theorem position_eq {line : UInt32} {text : List Char} (h : lines[line.toNat - 1]? = some text) (column : UInt16) :
    position lines line column = lineStart lines (line.toNat - 1) + min (column.toNat - 1) text.length := by
  unfold position
  rw [h, column_eq]

theorem position_of_lt {line : UInt32} (h : lines.length < line.toNat) (column : UInt16) :
    position lines line column = (joined lines).length := by
  unfold position
  rw [List.getElem?_eq_none (by omega)]

/--
The text of a span that does not end on a line in front of its first one is the piece of the joined lines between the
positions of its two ends, which is empty if the second one does not lie behind the first. There is no text just if the
file lacks the first line.
-/
theorem extract_eq_slice (lines : Array (List Char)) {span : SourceSpan} (h : span.startLine ≤ span.endLine) :
    extract lines span =
      if span.startLine = 0 ∨ lines.size < span.startLine.toNat then none
      else some (slice (joined lines.toList) (position lines.toList span.startLine span.startColumn)
        (position lines.toList span.endLine span.endColumn)) := by
  have hle : span.startLine.toNat ≤ span.endLine.toNat := UInt32.le_iff_toNat_le.mp h
  unfold extract
  by_cases hzero : span.startLine = 0
  · rw [if_pos hzero, if_pos (.inl hzero)]
  have hpos : span.startLine.toNat ≠ 0 := fun hnone => hzero (UInt32.toNat_inj.mp hnone)
  rw [if_neg hzero]
  dsimp only
  rw [← Array.getElem?_toList]
  cases hfirst : lines.toList[span.startLine.toNat - 1]? with
  | none =>
    have hsize := List.getElem?_eq_none_iff.mp hfirst
    rw [Array.length_toList] at hsize
    rw [if_pos (.inr (by omega))]
  | some line =>
    obtain ⟨hsize, -⟩ := List.getElem?_eq_some_iff.mp hfirst
    rw [Array.length_toList] at hsize
    rw [if_neg (by rw [not_or]; exact ⟨hzero, by omega⟩), position_eq hfirst]
    dsimp only
    split
    · next hline =>
      have hlast : lines.toList[span.endLine.toNat - 1]? = some line := by
        rw [← hfirst, show span.endLine.toNat - 1 = span.startLine.toNat - 1 by omega]
      rw [position_eq hlast, show span.endLine.toNat - 1 = span.startLine.toNat - 1 by omega, slice_joined_line hfirst]
    · next hline =>
      rw [Array.toList_extract, List.extract_eq_take_drop, ← Array.getElem?_toList]
      cases hlast : lines.toList[span.endLine.toNat - 1]? with
      | some final =>
        rw [position_eq hlast, slice_joined_lines hfirst hlast (Nat.not_le.mp hline)]
        rfl
      | none =>
        have hend := List.getElem?_eq_none_iff.mp hlast
        rw [position_of_lt (by omega), slice_joined_end hfirst, List.take_of_length_le (by rw [List.length_drop]; omega)]
        rw [Option.toList_none, List.map_nil, List.append_nil]
        rfl

/-- A file of three lines. -/
def sampleLines : Array (List Char) :=
  #[['a', '(', '1', ','], [' ', '2', ')', ';'], ['b', ';']]

/-- From the second character of the second line to a line that the file lacks. -/
theorem extract_eq_slice_past_end :
    (2 : UInt32) ≤ 9 ∧ position sampleLines.toList 2 2 = 6 ∧ position sampleLines.toList 9 1 = 12 ∧
      extract sampleLines ⟨0, 2, 2, 9, 1, false⟩ = some (slice (joined sampleLines.toList) 6 12) ∧
      slice (joined sampleLines.toList) 6 12 = ['2', ')', ';', '\n', 'b', ';'] := by
  have hle : (⟨0, 2, 2, 9, 1, false⟩ : SourceSpan).startLine ≤ (⟨0, 2, 2, 9, 1, false⟩ : SourceSpan).endLine := by decide
  refine ⟨hle, by decide +kernel, by decide +kernel, ?_, by decide +kernel⟩
  exact (extract_eq_slice sampleLines hle).trans (by decide +kernel)

end SourceText

end CilProbes
