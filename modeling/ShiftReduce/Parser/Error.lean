import ShiftReduce.Lexer.Token
import ShiftReduce.Grammar.Draft
import ShiftReduce.Lalr.Report

/-!
# Errors of parsers

Why a parser cannot be built, and why a parse fails. A failed parse tells where it failed, as a span
of bytes and as a line and a column.
-/

namespace ShiftReduce

open ShiftReduce.Text

/-- The bytes from `start` up to `stop`. -/
structure Span where
  start : Nat
  stop : Nat
deriving DecidableEq

/-- Why a parse fails. -/
inductive ParseError where
  /-- No terminal matches at a character. -/
  | lex (error : LexError) (location : Location)
  /-- A token came that has no action in the state. -/
  | unexpectedToken (terminal text : String) (span : Span) (location : Location) (state : Nat)
      (expected : List String)
  /-- The input ended in a state in which it must not. -/
  | unexpectedEnd (span : Span) (location : Location) (state : Nat) (expected : List String)
  /-- The rule of a production refused its values. -/
  | refused (message production : String) (span : Span) (location : Location)
deriving DecidableEq

namespace ParseError

/-- The bytes that the error is about. -/
def span : ParseError → Span
  | lex error _ => ⟨error.start, error.stop⟩
  | unexpectedToken _ _ span _ _ _ => span
  | unexpectedEnd span _ _ _ => span
  | refused _ _ span _ => span

/-- The position of the error. -/
def location : ParseError → Location
  | lex _ location => location
  | unexpectedToken _ _ _ location _ _ => location
  | unexpectedEnd _ location _ _ => location
  | refused _ _ _ location => location

/-- The state in which a syntax error was found. -/
def state? : ParseError → Option Nat
  | unexpectedToken _ _ _ _ state _ => some state
  | unexpectedEnd _ _ state _ => some state
  | _ => none

/-- The names of the terminals that would have had an action instead. -/
def expected : ParseError → List String
  | unexpectedToken _ _ _ _ _ expected => expected
  | unexpectedEnd _ _ _ expected => expected
  | _ => []

/-- A position in words. -/
def placeText (l : Location) : String :=
  "line " ++ toString l.line ++ ", column " ++ toString l.column

/-- The wording of an error. -/
def message : ParseError → String
  | lex error location => error.message ++ " (" ++ placeText location ++ ")"
  | unexpectedToken terminal text _ location _ _ =>
    "unexpected " ++ terminal ++ " `" ++ text ++ "` at " ++ placeText location
  | unexpectedEnd _ location _ _ => "unexpected end of input at " ++ placeText location
  | refused message production _ location =>
    message ++ " (reducing `" ++ production ++ "` at " ++ placeText location ++ ")"

end ParseError

/-- Why a parser cannot be built. -/
inductive ConstructionError where
  | invalidPattern (pattern : String) (error : Regex.Error)
  | lexer (error : LexerError)
  | grammar (error : GrammarError)
  | ambiguous (conflict : Conflict)
  | missingRule (production : String)
  | indexOutOfRange (production : String) (index length : Nat)
  | missingLiteralValue (terminal : String)
deriving DecidableEq

namespace ConstructionError

/-- The conflict, if the grammar is ambiguous. -/
def conflict? : ConstructionError → Option Conflict
  | ambiguous conflict => some conflict
  | _ => none

/-- The wording of an error. -/
def message : ConstructionError → String
  | invalidPattern pattern error => "invalid pattern `" ++ pattern ++ "`: " ++ error.message
  | lexer error => error.message
  | grammar error => error.message
  | ambiguous conflict => conflict.message
  | missingRule production =>
    "production `" ++ production ++ "` is empty and needs a reduce function"
  | indexOutOfRange production index length =>
    "production `" ++ production ++ "` reduces to symbol " ++ toString index ++
      ", but it has " ++ toString length ++ " symbols"
  | missingLiteralValue terminal =>
    "terminal " ++ terminal ++ " has no value constructor; set one with `literal_value`"

end ConstructionError

end ShiftReduce
