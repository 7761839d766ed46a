/-!
# Escaping

A text is made into a pattern that matches only this text by writing a backslash before every
character that has a meaning of its own in patterns.
-/

namespace ShiftReduce.Regex

/-- The characters that have a meaning of their own in patterns. -/
def isMeta (c : Char) : Bool :=
  ['\\', '.', '+', '*', '?', '(', ')', '|', '[', ']', '{', '}', '^', '$'].contains c

/-- One character, with a backslash before it if it needs one. -/
def escapeChar (c : Char) : List Char :=
  if isMeta c then ['\\', c] else [c]

/-- The pattern that matches exactly `text`. -/
def escape (text : String) : String :=
  String.ofList (text.toList.flatMap escapeChar)

end ShiftReduce.Regex
