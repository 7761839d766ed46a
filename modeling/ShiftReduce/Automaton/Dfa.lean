import ShiftReduce.Automaton.Nfa

/-!
# The subset construction

A deterministic automaton whose states are the closed sets of states of a nondeterministic one that
can be reached. They are numbered in the order in which they are found: the sets are taken in order,
the letters of each in ascending order, and a set that has not been seen gets the next number.
-/

namespace ShiftReduce

/-- One state of a deterministic automaton: its moves in ascending order of the letter, and the
terminal that it accepts. -/
structure DfaRow where
  moves : List (Nat × Nat)
  accept : Option Nat
deriving DecidableEq, Inhabited

/-- A deterministic automaton. Its states are the indices of the rows; state `0` is the first. -/
structure Dfa where
  rows : Array DfaRow
deriving DecidableEq

namespace Dfa

/-- The number of states. -/
def size (d : Dfa) : Nat := d.rows.size

/-- The state after reading `a` in state `p`. -/
def next (d : Dfa) (p a : Nat) : Option Nat :=
  (d.rows[p]?.bind fun row => row.moves.find? fun move => move.1 == a).map Prod.snd

/-- The terminal that state `p` accepts. -/
def accept (d : Dfa) (p : Nat) : Option Nat :=
  d.rows[p]?.bind DfaRow.accept

/-- The number of a set of states, which is the next free one if the set is new. -/
def intern (sets : Array IdSet) (s : IdSet) : Array IdSet × Nat :=
  match sets.idxOf? s with
  | some i => (sets, i)
  | none => (sets.push s, sets.size)

/-- Adds the move from the set `s` by the letter `a` to the moves found so far. -/
def addMove (m : Nfa) (s : IdSet) (found : Array IdSet × List (Nat × Nat)) (a : Nat) :
    Array IdSet × List (Nat × Nat) :=
  let next := m.step s a
  if next = ∅ then found
  else
    let (sets, i) := intern found.1 next
    (sets, found.2 ++ [(a, i)])

/-- The letters that can be read in one of the given states, in ascending order. -/
def lettersOf (m : Nfa) (s : IdSet) : List Nat :=
  (IdSet.ofList (s.toList.flatMap m.letters)).toList

/-- The row of a set of states, and the sets found so far with those it leads to. -/
def rowOf (m : Nfa) (sets : Array IdSet) (s : IdSet) : Array IdSet × DfaRow :=
  let (sets, moves) := (lettersOf m s).foldl (addMove m s) (sets, [])
  (sets, ⟨moves, (m.bestAccept s).map Accept.terminal⟩)

/-- Makes the rows of the sets found so far, in order, and of those found on the way. -/
def explore (m : Nfa) : Nat → Array IdSet → Array DfaRow → Array IdSet × Array DfaRow
  | 0, sets, rows => (sets, rows)
  | fuel + 1, sets, rows =>
    match sets[rows.size]? with
    | none => (sets, rows)
    | some s =>
      let (sets, row) := rowOf m sets s
      explore m fuel sets (rows.push row)

/-- The subset construction. There are no more sets than subsets of the states. -/
def ofNfa (m : Nfa) : Dfa :=
  ⟨(explore m (1 <<< m.size + 1) #[m.startSet] #[]).2⟩

end Dfa

end ShiftReduce
