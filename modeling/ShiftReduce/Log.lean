/-!
# Log events

What a construction or a parse tells about itself: events in the order in which they happen, each
with a level, a message and named fields. A field is a count or a text.
-/

namespace ShiftReduce

/-- How important an event is. -/
inductive Level where
  | trace
  | debug
  | warn
deriving DecidableEq

/-- The name of a level as events show it. -/
def Level.name : Level → String
  | .trace => "TRACE"
  | .debug => "DEBUG"
  | .warn => "WARN"

/-- The value of a field of an event. -/
inductive FieldValue where
  | count (n : Nat)
  | text (s : String)
deriving DecidableEq

/-- One event, with its fields in the order in which they were given. -/
structure Event where
  level : Level
  message : String
  fields : List (String × FieldValue)
deriving DecidableEq

/-- A result together with the events on the way to it. -/
structure Logged (α : Type) where
  value : α
  log : List Event

end ShiftReduce
