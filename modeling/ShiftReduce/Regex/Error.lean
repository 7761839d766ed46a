/-!
# Faults in a pattern

The ways in which a pattern can be malformed, with the wording of each. A fault is reported with the
byte offset in the pattern at which it was found.
-/

namespace ShiftReduce.Regex

/-- What is wrong with a pattern. -/
inductive Fault where
  | unexpected
  | unclosedGroup
  | unclosedSet
  | invalidEscape
  | invalidRange
  | invalidRepetition
  | nothingToRepeat
  | matchesEmpty
deriving DecidableEq

/-- The wording of a fault. -/
def Fault.message : Fault → String
  | .unexpected => "syntax error"
  | .unclosedGroup => "unclosed group"
  | .unclosedSet => "unclosed character set"
  | .invalidEscape => "invalid escape sequence"
  | .invalidRange => "invalid character range"
  | .invalidRepetition => "invalid repetition"
  | .nothingToRepeat => "nothing to repeat"
  | .matchesEmpty => "regex may accept empty string"

/-- A fault and the byte offset in the pattern at which it lies. -/
structure Error where
  fault : Fault
  offset : Nat
deriving DecidableEq

/-- The wording of a fault with its place. -/
def Error.message (e : Error) : String :=
  e.fault.message ++ " at offset " ++ toString e.offset

end ShiftReduce.Regex
