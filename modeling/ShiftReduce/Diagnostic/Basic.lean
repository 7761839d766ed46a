import ShiftReduce.Parser.Error

/-!
# Diagnostics

What is said about a parse error: a headline, the span that it is about with a label, and what was expected
instead. How this is shown in the source is left to a renderer, which looks up lines and columns in a table
of its own. A renderer may fail, and then only the name of the source and the message of the error are left.
-/

namespace ShiftReduce

open ShiftReduce.Text

/-- A message about a span of a source. -/
structure Diagnostic where
  message : String
  label : String
  span : Span
  note : Option String
deriving DecidableEq

namespace Diagnostic

/-- The headline and the label of an error. -/
def wording : ParseError → String × String
  | .lex error _ =>
    ("unrecognized character " ++ quoted error.char, "no terminal matches here")
  | .unexpectedToken terminal text _ _ _ _ =>
    ("unexpected " ++ terminal ++ " `" ++ text ++ "`", "unexpected token")
  | .unexpectedEnd _ _ _ _ => ("unexpected end of input", "input ends here")
  | .refused message production _ _ => (message, "while reducing `" ++ production ++ "`")

/-- What is shown about an error. -/
def ofError (e : ParseError) : Diagnostic :=
  { message := (wording e).1
    label := (wording e).2
    span := e.span
    note :=
      if e.expected.isEmpty then none
      else some ("expected one of: " ++ ", ".intercalate e.expected) }

end Diagnostic

/-- What shows diagnostics. -/
structure Renderer where
  /-- The bytes at which the lines of a source start, in which lines and columns are looked up. -/
  starts : String → List Nat
  /-- The diagnostic as text, against the source with the given name. There is none if it cannot be shown
  there. -/
  emit : Diagnostic → (name source : String) → Option String

/-- The error as text, against the source with the given name. -/
def Renderer.report (r : Renderer) (e : ParseError) (name source : String) : String :=
  match r.emit (.ofError e) name source with
  | some text => text
  | none => name ++ ": " ++ e.message ++ "\n"

end ShiftReduce
