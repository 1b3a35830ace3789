import CilProbes.Symbols.SequencePoint

/-!
# The text of a source span

A span runs from a line and column up to, but not including, another. Lines and columns count from 1, columns in
characters. A span that is exactly a brace marks where a block begins or ends; it is no statement and is not probed.
-/

namespace CilProbes

namespace SourceText

/-- The lines of a text. A line break is a line feed, with a carriage return before it or not. -/
def lines (text : List Char) : Array (List Char) :=
  linesOnto text [] #[]
where
  /-- The lines `done`, then those of a text whose first line has begun with the reverse of the given characters. -/
  linesOnto : List Char → List Char → Array (List Char) → Array (List Char)
    | [], [], done => done
    | [], begun, done => done.push begun.reverse
    | c :: cs, begun, done =>
      if c = '\n' then
        linesOnto cs [] (done.push (match begun with
        | '\r' :: rest => rest.reverse
        | _ => begun.reverse))
      else linesOnto cs (c :: begun) done

/-- The lines of a file; a byte order mark in front does not count. -/
def ofBytes (bytes : List UInt8) : Array (List Char) :=
  let text :=
    match Utf8.decodeLossy bytes with
    | '\uFEFF' :: text => text
    | text => text
  lines text

/-- The characters from one place of a line up to another. -/
def slice (line : List Char) (start stop : Nat) : List Char :=
  (line.drop start).take (stop - start)

/-- The text of a span, if the lines have its first line. A span that ends on an earlier line ends on its first one. -/
def extract (lines : Array (List Char)) (span : SourceSpan) : Option (List Char) :=
  if span.startLine = 0 then none
  else
    let first := span.startLine.toNat - 1
    let last := span.endLine.toNat - 1
    let left := span.startColumn.toNat - 1
    let right := span.endColumn.toNat - 1
    match lines[first]? with
    | none => none
    | some line =>
      if last ≤ first then some (slice line left right)
      else
        let between := (lines.extract (first + 1) last).toList
        let final := lines[last]?.toList.map fun line => line.take right
        some (['\n'].intercalate (line.drop left :: (between ++ final)))

/-- The text of a span is a statement to probe. -/
def isStatement (text : List Char) : Bool :=
  text != ['\x7b'] && text != ['\x7d']

end SourceText

end CilProbes
