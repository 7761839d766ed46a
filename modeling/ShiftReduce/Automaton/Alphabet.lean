import ShiftReduce.Regex.Basic

/-!
# Compressed alphabets

The patterns of a lexer tell only finitely many kinds of characters apart. The code points are cut
at every bound of a range that occurs in a pattern, and a letter is the index of one of the
intervals in between: all characters of an interval behave alike in every pattern. The lower bounds
of the intervals are kept in ascending order, from `0` to `charEnd`, and the letter of a character
is found by bisection.
-/

namespace ShiftReduce

namespace Regex

mutual

/-- The ranges of all one-character expressions in an expression. -/
def leafRanges : Regex → List CodeRange
  | empty => []
  | any => (charRanges any).getD []
  | char c => (charRanges (char c)).getD []
  | set negated items => (charRanges (set negated items)).getD []
  | cls k => (charRanges (cls k)).getD []
  | alt rs => allLeafRanges rs
  | concat rs => allLeafRanges rs
  | optional r => leafRanges r
  | many r => leafRanges r
  | many1 r => leafRanges r
  | repeated r _ _ => leafRanges r

/-- The ranges of all one-character expressions in a list of expressions. -/
def allLeafRanges : List Regex → List CodeRange
  | [] => []
  | r :: rs => leafRanges r ++ allLeafRanges rs

end

end Regex

/-- Adds a number to a list in strictly ascending order, unless it is there already. -/
def insertAscending (n : Nat) : List Nat → List Nat
  | [] => [n]
  | m :: ms =>
    if n < m then n :: m :: ms
    else if n = m then m :: ms
    else m :: insertAscending n ms

/-- The lower bounds of the intervals into which the code points are cut, in ascending order. -/
structure Alphabet where
  bounds : Array Nat
deriving DecidableEq

namespace Alphabet

/-- The bounds that a list of expressions asks for. -/
def boundsOf (rs : List Regex) : List Nat :=
  (Regex.allLeafRanges rs).foldl (fun acc r => insertAscending r.2 (insertAscending r.1 acc))
    [0, charEnd]

/-- The alphabet that tells apart what the given expressions tell apart. -/
def ofRegexes (rs : List Regex) : Alphabet := ⟨(boundsOf rs).toArray⟩

/-- The number of letters. -/
def size (a : Alphabet) : Nat := a.bounds.size

/-- The number of bounds that are at most `n`, which is known to lie from `lo` to `hi`. -/
def bisect (bounds : Array Nat) (n lo hi : Nat) : Nat :=
  if lo < hi then
    let mid := (lo + hi) / 2
    if n < bounds[mid]?.getD 0 then bisect bounds n lo mid
    else bisect bounds n (mid + 1) hi
  else lo
termination_by hi - lo

/-- The letter of the code point `n`: the index of the last bound that is at most `n`. -/
def letterOf (a : Alphabet) (n : Nat) : Nat :=
  bisect a.bounds n 0 a.bounds.size - 1

/-- The letter of a character. -/
def letter (a : Alphabet) (c : Char) : Nat := a.letterOf c.toNat

end Alphabet

end ShiftReduce
