import ShiftReduce.Automaton.Dfa

/-!
# Displaced rows

The moves of a deterministic automaton in one array of slots. The row of each state is laid over the
rows before it at the lowest base at which no two moves meet in a slot, and a slot records the state
that owns it, so that a move of one state is never taken for a move of another.
-/

namespace ShiftReduce

/-- A deterministic automaton with its rows laid over each other. -/
structure Displaced where
  /-- The number of letters. -/
  letters : Nat
  /-- Where the row of each state starts. -/
  bases : Array Nat
  /-- The owner of each slot in use and the state that the move leads to. -/
  slots : Array (Option (Nat × Nat))
  /-- The terminal that each state accepts. -/
  accepts : Array (Option Nat)
deriving DecidableEq

namespace Displaced

/-- The table without states. -/
def empty (letters : Nat) : Displaced := ⟨letters, #[], #[], #[]⟩

/-- Whether the slot with the given number is in use. -/
def inUse (slots : Array (Option (Nat × Nat))) (i : Nat) : Bool :=
  (slots[i]?.bind id).isSome

/-- Whether the moves of a row find free slots at the given base. -/
def fits (slots : Array (Option (Nat × Nat))) (moves : List (Nat × Nat)) (base : Nat) : Bool :=
  moves.all fun move => !inUse slots (base + move.1)

/-- The lowest base at which a row fits, from `base` on. The last one tried is `base + n`. -/
def findBaseFrom (slots : Array (Option (Nat × Nat))) (moves : List (Nat × Nat)) :
    Nat → Nat → Nat
  | 0, base => base
  | n + 1, base =>
    if fits slots moves base then base else findBaseFrom slots moves n (base + 1)

/-- The lowest base at which a row fits. Past the last slot every row fits. -/
def findBase (slots : Array (Option (Nat × Nat))) (moves : List (Nat × Nat)) : Nat :=
  findBaseFrom slots moves slots.size 0

/-- Adds free slots until there are `n`. -/
def extend (slots : Array (Option (Nat × Nat))) (n : Nat) : Array (Option (Nat × Nat)) :=
  slots ++ Array.replicate (n - slots.size) none

/-- Adds the row of the next state. -/
def addRow (t : Displaced) (row : DfaRow) : Displaced :=
  let owner := t.bases.size
  let base := findBase t.slots row.moves
  { letters := t.letters
    bases := t.bases.push base
    slots := row.moves.foldl
      (fun slots move => slots.setIfInBounds (base + move.1) (some (owner, move.2)))
      (extend t.slots (base + t.letters))
    accepts := t.accepts.push row.accept }

/-- Lays out the rows of an automaton over the given number of letters. -/
def ofDfa (d : Dfa) (letters : Nat) : Displaced :=
  d.rows.foldl addRow (empty letters)

/-- The state after reading `a` in state `p`. -/
def next (t : Displaced) (p a : Nat) : Option Nat :=
  if t.letters ≤ a then none
  else
    match t.slots[t.bases[p]?.getD 0 + a]? with
    | some (some (owner, target)) => if owner = p then some target else none
    | _ => none

/-- The terminal that state `p` accepts. -/
def accept (t : Displaced) (p : Nat) : Option Nat :=
  t.accepts[p]?.bind id

/-- The table as the token loop sees it. -/
def recognizer (t : Displaced) : Recognizer Nat where
  start := 0
  next := t.next
  accept := t.accept

end Displaced

end ShiftReduce
