import ShiftReduce.Regex.Ranges

/-!
# Regular expressions

The tree of a regular expression over characters. The leaves match one character each and are
described by the ranges of code points that they match (`Regex.charRanges`); every other node is
composite. `Regex.acceptsEmpty` says whether an expression matches the empty text, which no
terminal of a lexer may do.
-/

namespace ShiftReduce

/-- The named classes of characters, which are classes of ASCII characters and their complements. -/
inductive CharClass where
  | digit
  | word
  | space
  | notDigit
  | notWord
  | notSpace
deriving DecidableEq

namespace CharClass

/-- The ASCII digits. -/
def digitRanges : List CodeRange := [(0x30, 0x3A)]

/-- The ASCII digits and letters and the underscore. -/
def wordRanges : List CodeRange := [(0x30, 0x3A), (0x41, 0x5B), (0x5F, 0x60), (0x61, 0x7B)]

/-- Tab, line feed, vertical tab, form feed, carriage return and space. -/
def spaceRanges : List CodeRange := [(0x09, 0x0E), (0x20, 0x21)]

/-- The code points of a class, as ranges in normal form. -/
def ranges : CharClass → List CodeRange
  | .digit => digitRanges
  | .word => wordRanges
  | .space => spaceRanges
  | .notDigit => complement digitRanges
  | .notWord => complement wordRanges
  | .notSpace => complement spaceRanges

end CharClass

/-- One item of a bracketed set. -/
inductive SetItem where
  | char (c : Char)
  | range (first last : Char)
  | cls (k : CharClass)
deriving DecidableEq

/-- The code points of an item of a set. -/
def SetItem.ranges : SetItem → List CodeRange
  | .char c => [(c.toNat, c.toNat + 1)]
  | .range first last => [(first.toNat, last.toNat + 1)]
  | .cls k => k.ranges

/-- A regular expression. In `repeated r min max` an absent `max` means that there is no upper
bound. -/
inductive Regex where
  | empty
  | any
  | char (c : Char)
  | set (negated : Bool) (items : List SetItem)
  | cls (k : CharClass)
  | alt (alternatives : List Regex)
  | concat (items : List Regex)
  | optional (r : Regex)
  | many (r : Regex)
  | many1 (r : Regex)
  | repeated (r : Regex) (min : Nat) (max : Option Nat)
deriving Inhabited

namespace Regex

/-- Alternatives as one expression: a single one stands for itself. -/
def ofAlternatives : List Regex → Regex
  | [r] => r
  | rs => alt rs

/-- A sequence as one expression: a single item stands for itself, no item for the empty text. -/
def ofSequence : List Regex → Regex
  | [] => empty
  | [r] => r
  | rs => concat rs

/-- The expression that matches exactly `text`. -/
def literal (text : String) : Regex :=
  ofSequence (text.toList.map char)

mutual

/-- Whether the expression matches the empty text. -/
def acceptsEmpty : Regex → Bool
  | empty => true
  | any => false
  | char _ => false
  | set _ _ => false
  | cls _ => false
  | alt rs => anyAcceptsEmpty rs
  | concat rs => allAcceptEmpty rs
  | optional _ => true
  | many _ => true
  | many1 r => acceptsEmpty r
  | repeated r min _ => min == 0 || acceptsEmpty r

/-- Whether one of the expressions matches the empty text. -/
def anyAcceptsEmpty : List Regex → Bool
  | [] => false
  | r :: rs => acceptsEmpty r || anyAcceptsEmpty rs

/-- Whether all of the expressions match the empty text. -/
def allAcceptEmpty : List Regex → Bool
  | [] => true
  | r :: rs => acceptsEmpty r && allAcceptEmpty rs

end

/-- The code points of a bracketed set. -/
def setRanges (negated : Bool) (items : List SetItem) : List CodeRange :=
  let ranges := normalize (items.flatMap SetItem.ranges)
  if negated then complement ranges else ranges

/-- The code points that a one-character expression matches; a composite one has none to tell.
The dot matches every character but the line feed. -/
def charRanges : Regex → Option (List CodeRange)
  | any => some (complement [(0x0A, 0x0B)])
  | char c => some [(c.toNat, c.toNat + 1)]
  | cls k => some k.ranges
  | set negated items => some (setRanges negated items)
  | _ => none

end Regex

end ShiftReduce
