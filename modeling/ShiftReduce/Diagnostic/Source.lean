import ShiftReduce.Text.Blank
import ShiftReduce.Text.Columns
import ShiftReduce.Text.Location

/-!
# Lines of a source

A source is cut into lines, of which each but the last ends with its line feed. The characters of a
line are measured one after the other: each has a byte index in the line and a width in columns,
where a tab reaches the next tab stop.
-/

namespace ShiftReduce.Diagnostic

open ShiftReduce.Text

/-- A line of a source, with its line feed if it has one, and the byte at which it starts. -/
structure SourceLine where
  start : Nat
  chars : List Char
deriving DecidableEq

/-- Cuts the characters from byte `start` on into lines; `line` holds the characters of the line in
hand, last one first, which starts at byte `start`. -/
def linesFrom (start : Nat) (line : List Char) : List Char → List SourceLine
  | [] => [⟨start, line.reverse⟩]
  | c :: cs =>
    if c = '\n' then
      ⟨start, (c :: line).reverse⟩ :: linesFrom (start + byteLength (c :: line)) [] cs
    else linesFrom start (c :: line) cs

/-- The lines of a source. There is always one, which is empty after a final line feed. -/
def linesOf (source : String) : List SourceLine := linesFrom 0 [] source.toList

/-- The index of the line in which an offset lies: the last one that starts at or before it. -/
def lineIndex (lines : List SourceLine) (offset : Nat) : Nat :=
  (lines.takeWhile fun line => line.start ≤ offset).length - 1

/-- The number of characters of a line up to an offset in the source. -/
def SourceLine.columnOf (line : SourceLine) (offset : Nat) : Nat :=
  (before (offset - line.start) line.chars).length

/-- The part of a line that is shown: without line feeds, carriage returns and NULs at its end. -/
def SourceLine.shown (line : SourceLine) : List Char :=
  (line.chars.reverse.dropWhile fun c => c = '\n' || c = '\r' || c = '\x00').reverse

/-- A character of a line with the byte at which it starts and the columns that it takes. -/
structure Measured where
  char : Char
  index : Nat
  width : Nat
deriving DecidableEq

/-- Measures characters from a byte and a column on. -/
def measureFrom (index column : Nat) : List Char → List Measured
  | [] => []
  | c :: cs =>
    let width := columnsFrom column c
    ⟨c, index, width⟩ :: measureFrom (index + c.utf8Size) (column + width) cs

/-- Measures the characters of a line. -/
def measure (cs : List Char) : List Measured := measureFrom 0 0 cs

/-- The columns that the characters before a byte of a line take. -/
def columnsBefore (cs : List Char) (index : Nat) : Nat :=
  ((measure cs).filter fun m => m.index < index).foldl (fun columns m => columns + m.width) 0

/-- A line as it is printed: tabs are filled up with spaces. -/
def expandTabs (cs : List Char) : String :=
  String.join ((measure cs).map fun m =>
    if m.char = '\t' then String.ofList (List.replicate m.width ' ') else m.char.toString)

/-- The number of bytes of the blank beginning of a line. -/
def indentation (cs : List Char) : Nat := byteLength (cs.takeWhile isBlank)

end ShiftReduce.Diagnostic
