import ShiftReduce.Diagnostic.Basic
import ShiftReduce.Diagnostic.Source

/-!
# Rendered diagnostics

A diagnostic shown in the source: the headline, the place, the lines of the span with the span marked
and the label, and the note. A span within one line is underlined. A span of several lines is marked by a
bracket in a gutter; long ones are abbreviated in the middle. Every diagnostic can be shown in every
source.

`Diagnostic.layout` is one renderer. Which place a report names does not depend on how it lays out the rest.
-/

namespace ShiftReduce

open ShiftReduce.Text

namespace Diagnostic

/-- A character, repeated. -/
def rep (n : Nat) (c : Char) : String := String.ofList (List.replicate n c)

/-- The margin of a row without a line number, for line numbers of width `w`. -/
def pad (w : Nat) : String := rep (w + 1) ' '

/-- The margin of a row with a line number, counted from one. -/
def margin (w line : Nat) : String :=
  let digits := toString (line + 1)
  rep (w - digits.length) ' ' ++ digits ++ " "

/-- The marks below a line: a span from byte `start` up to byte `stop` of the line is underlined.
One column after the text can be marked too. -/
def carets (cs : List Char) (start stop : Nat) : String :=
  let extra : Measured := ⟨' ', byteLength cs, 1⟩
  String.join ((measure cs ++ [extra]).map fun m =>
    if m.index < stop ∧ start < m.index + m.char.utf8Size then rep m.width '^'
    else if m.index < stop then rep m.width ' '
    else "")

/-- The rows of a span within one line. -/
def singleRows (w : Nat) (d : Diagnostic) (i : Nat) (line : SourceLine) : List String :=
  let start := d.span.start - line.start
  let stop := max (d.span.stop - line.start) (start + 1)
  [margin w i ++ "│ " ++ expandTabs line.shown,
    pad w ++ "│ " ++ carets line.shown start stop ++ " " ++ d.label]

/-- A line of a longer span, with what stands in the gutter. -/
def gutterRow (w i : Nat) (gutter : String) (line : SourceLine) : String :=
  margin w i ++ "│" ++ gutter ++ " " ++ expandTabs line.shown

/-- The rows of the first line of a longer span. The bracket opens in the gutter if the span starts
with the text of the line, or else in a row of its own. -/
def openingRows (w : Nat) (d : Diagnostic) (i : Nat) (line : SourceLine) : List String :=
  let start := d.span.start - line.start
  if start ≤ indentation line.shown then [gutterRow w i " ╭" line]
  else
    [gutterRow w i "  " line,
      pad w ++ "│ ╭" ++ rep (columnsBefore line.shown (start + 1)) '─' ++ "^"]

/-- The rows of the last line of a longer span. -/
def closingRows (w : Nat) (d : Diagnostic) (i : Nat) (line : SourceLine) : List String :=
  [gutterRow w i " │" line,
    pad w ++ "│ ╰" ++ rep (columnsBefore line.shown (d.span.stop - line.start)) '─' ++ "^ " ++
      d.label]

/-- How many of the lines inside a longer span are shown after its first line. -/
def leadingLines : Nat := 3

/-- The rows of the lines inside a longer span, the first of which has index `i`: the first
`leadingLines` and the last are shown, and one row stands for two or more lines between them. -/
def innerRows (w i : Nat) (lines : List SourceLine) : List String :=
  let rows := lines.zipIdx.map fun line => gutterRow w (i + line.2) " │" line.1
  if rows.length ≤ leadingLines + 2 then rows
  else rows.take leadingLines ++ [pad w ++ "· │"] ++ rows.drop (rows.length - 1)

/-- The lines of a text. A carriage return before a line feed goes with it, and a final line feed
starts no line. -/
def noteLines (text : String) : List String :=
  let parts := text.splitOn "\n"
  let bodies := parts.dropLast.map fun part =>
    if part.toList.getLast? = some '\r' then String.ofList part.toList.dropLast else part
  bodies ++ (parts.getLast?.toList.filter fun part => part ≠ "")

/-- The rows of a note. -/
def noteRows (w : Nat) (gutter : String) : Option String → List String
  | none => []
  | some note =>
    (pad w ++ "│" ++ gutter) :: (noteLines note).zipIdx.map fun line =>
      pad w ++ (if line.2 = 0 then "= " else "  ") ++ line.1

/-- The diagnostic as text, against the source with the given name. -/
def render (d : Diagnostic) (name source : String) : String :=
  let lines := linesOf source
  let a := lineIndex lines d.span.start
  let b := lineIndex lines d.span.stop
  let first := (lines[a]?).getD ⟨0, []⟩
  let last := (lines[b]?).getD ⟨0, []⟩
  let w := (toString (b + 1)).length
  let gutter := if a = b then "" else "  "
  let body :=
    if a = b then singleRows w d a first
    else
      openingRows w d a first ++ innerRows w (a + 1) ((lines.drop (a + 1)).take (b - a - 1)) ++
        closingRows w d b last
  let place := name ++ ":" ++ toString (a + 1) ++ ":" ++ toString (first.columnOf d.span.start + 1)
  String.join ((["error: " ++ d.message, pad w ++ "┌─ " ++ place, pad w ++ "│" ++ gutter] ++
    body ++ noteRows w gutter d.note ++ [""]).map (· ++ "\n"))

/-- The renderer that looks lines up among the lines of the source. -/
def layout : Renderer where
  starts source := (linesOf source).map SourceLine.start
  emit d name source := some (d.render name source)

end Diagnostic

/-- The error as text, against the source with the given name. -/
def ParseError.report (e : ParseError) (name source : String) : String :=
  Diagnostic.layout.report e name source

end ShiftReduce
