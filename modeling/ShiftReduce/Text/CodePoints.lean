/-!
# Classes of code points

Character classes of the Unicode standard are kept as lists of closed ranges of code points. A
character belongs to a class if one of the ranges covers it.
-/

namespace ShiftReduce.Text

/-- Whether one of the closed ranges covers the code point of `c`. -/
def inRanges (ranges : List (Nat × Nat)) (c : Char) : Bool :=
  ranges.any fun r => r.1 ≤ c.toNat && c.toNat ≤ r.2

end ShiftReduce.Text
