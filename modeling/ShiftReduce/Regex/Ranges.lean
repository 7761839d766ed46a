/-!
# Sets of code points as ranges

A set of code points is written as a list of half-open ranges. In the normal form the ranges are in
ascending order, none is empty and no two touch, so every set has exactly one normal form.
`normalize` adds the ranges one by one to a list in normal form; a range that meets another one is
joined with it and goes on as their hull. `complement` lists the gaps below `charEnd`.
-/

namespace ShiftReduce

/-- A half-open range of code points: the first one in it and the first one after it. -/
abbrev CodeRange := Nat × Nat

/-- One past the largest code point. -/
def charEnd : Nat := 0x110000

namespace CodeRange

/-- Whether the range covers the code point `n`. -/
def Covers (r : CodeRange) (n : Nat) : Prop := r.1 ≤ n ∧ n < r.2

instance (r : CodeRange) (n : Nat) : Decidable (r.Covers n) :=
  inferInstanceAs (Decidable (_ ∧ _))

end CodeRange

/-- Adds the non-empty range from `lo` to `hi` to a list in normal form. -/
def addRange (lo hi : Nat) : List CodeRange → List CodeRange
  | [] => [(lo, hi)]
  | (a, b) :: rest =>
    if hi < a then (lo, hi) :: (a, b) :: rest
    else if b < lo then (a, b) :: addRange lo hi rest
    else addRange (min lo a) (max hi b) rest

/-- The normal form of the union of the given ranges, of which the empty ones do not count. -/
def normalize (ranges : List CodeRange) : List CodeRange :=
  ranges.foldl (fun acc r => if r.1 < r.2 then addRange r.1 r.2 acc else acc) []

/-- The gaps between the given ranges, from `next` on. -/
def complementFrom (next : Nat) : List CodeRange → List CodeRange
  | [] => if next < charEnd then [(next, charEnd)] else []
  | (lo, hi) :: rest =>
    if next < lo then (next, lo) :: complementFrom hi rest else complementFrom hi rest

/-- The code points that a list of ranges in normal form leaves out. -/
def complement (ranges : List CodeRange) : List CodeRange :=
  complementFrom 0 ranges

end ShiftReduce
