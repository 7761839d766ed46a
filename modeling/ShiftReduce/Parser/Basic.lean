import ShiftReduce.Parser.Error

/-!
# Parsers

A parser that makes values of type `α`: the tables and the lexer of a grammar, a function from texts
to values for each terminal that occurs in a production, and a rule for each production.
-/

namespace ShiftReduce

/-- How the value of a production is made from the values of its symbols. -/
inductive Rule (α : Type) where
  /-- The value of the first symbol. -/
  | first
  /-- The value of the symbol at an index. -/
  | index (i : Nat)
  /-- A function of all values, which may refuse them with a message. -/
  | apply (f : List α → Except String α)

/-- The value that a rule makes. -/
def Rule.run {α : Type} (values : List α) : Rule α → Except String α
  | .first =>
    match values.head? with
    | some v => .ok v
    | none => .error ""
  | .index i =>
    match values[i]? with
    | some v => .ok v
    | none => .error ""
  | .apply f => f values

/-- The rule of a production, and what is done instead if the production is reduced after an error
has been recovered from. -/
structure ProdRule (α : Type) where
  rule : Rule α
  onError : Option (ParseError → List α → α)

/-- A parser for values of type `α`. -/
structure Parser (α : Type) where
  grammar : Grammar
  lexer : Lexer
  tables : Tables
  /-- By terminal: how the text of a token becomes a value. -/
  values : Array (Option (String → α))
  /-- By production. -/
  rules : Array (ProdRule α)

end ShiftReduce
