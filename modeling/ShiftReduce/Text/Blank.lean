import ShiftReduce.Text.CodePoints

/-!
# Blank characters

The characters with the Unicode property `White_Space`, as closed ranges in ascending order.
-/

namespace ShiftReduce.Text

/-- The blank code points. -/
def blankRanges : List (Nat × Nat) := [
  (0x0009, 0x000D), (0x0020, 0x0020), (0x0085, 0x0085), (0x00A0, 0x00A0),
  (0x1680, 0x1680), (0x2000, 0x200A), (0x2028, 0x2029), (0x202F, 0x202F),
  (0x205F, 0x205F), (0x3000, 0x3000)]

/-- Whether `c` is blank. -/
def isBlank (c : Char) : Bool := inRanges blankRanges c

end ShiftReduce.Text
