/-!
# Lines and columns

Offsets into a text count the bytes of its UTF-8 form. `Location.ofOffset` turns an offset into a
line and a column, both counted from one, where a column is a character. The location is found by
walking over the characters before the offset, which is why an offset past the end gives the
location of the end.
-/

namespace ShiftReduce.Text

/-- The number of bytes of a list of characters. -/
def byteLength : List Char → Nat
  | [] => 0
  | c :: cs => c.utf8Size + byteLength cs

@[simp] theorem byteLength_nil : byteLength [] = 0 := rfl

@[simp] theorem byteLength_cons (c : Char) (cs : List Char) :
    byteLength (c :: cs) = c.utf8Size + byteLength cs := rfl

@[simp] theorem byteLength_append (cs ds : List Char) :
    byteLength (cs ++ ds) = byteLength cs + byteLength ds := by
  induction cs with
  | nil => simp
  | cons c cs ih => simp [ih, Nat.add_assoc]

/-- The characters that lie wholly before a byte offset. -/
def before : Nat → List Char → List Char
  | _, [] => []
  | offset, c :: cs =>
    if c.utf8Size ≤ offset then c :: before (offset - c.utf8Size) cs else []

/-- A position in a text: line and column, both from one. -/
structure Location where
  line : Nat
  column : Nat
deriving DecidableEq

namespace Location

/-- The first position of a text. -/
def start : Location := ⟨1, 1⟩

/-- The position after the character `c`. -/
def advance (l : Location) (c : Char) : Location :=
  if c = '\n' then ⟨l.line + 1, 1⟩ else ⟨l.line, l.column + 1⟩

/-- The position after the given characters. -/
def after (cs : List Char) : Location :=
  cs.foldl advance start

/-- The position of a byte offset, which is taken to be the end if it lies past it. -/
def ofOffset (text : String) (offset : Nat) : Location :=
  after (before offset text.toList)

end Location

end ShiftReduce.Text
