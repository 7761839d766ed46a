import ShiftReduce.Reach
import ShiftReduce.Automaton.Recognizer

/-!
# Nondeterministic automata

An automaton over letters with silent edges. The states are numbered from zero in the order in which
they are made, and state `0` is the first state. Each state has the list of the edges that leave it.
A state that accepts carries a terminal and a priority; of several accepting states the one with the
smallest priority counts, and the first of them on a tie.

The automaton is run on sets of states that are closed under silent edges (`Nfa.recognizer`).
-/

namespace ShiftReduce

/-- An edge out of a state: the letter that it reads, none if it is silent, and its target. -/
structure Edge where
  letter : Option Nat
  target : Nat
deriving DecidableEq

/-- What an accepting state stands for. -/
structure Accept where
  priority : Nat
  terminal : Nat
deriving DecidableEq

/-- A nondeterministic automaton with silent edges. -/
structure Nfa where
  /-- The edges out of each state. -/
  edges : Array (List Edge)
  /-- The accepting states, in the order in which they were marked. -/
  accepts : List (Nat × Accept)
deriving DecidableEq

namespace Nfa

/-- The automaton with only its first state. -/
def single : Nfa := ⟨#[[]], []⟩

/-- The number of states. -/
def size (m : Nfa) : Nat := m.edges.size

/-- The edges out of state `p`. -/
def out (m : Nfa) (p : Nat) : List Edge := m.edges[p]?.getD []

/-- Adds a state, which gets the next number, `m.size`. -/
def addState (m : Nfa) : Nfa := { m with edges := m.edges.push [] }

/-- Adds an edge from `p`, unless it is there already. -/
def addEdge (m : Nfa) (p : Nat) (e : Edge) : Nfa :=
  { m with edges := m.edges.modify p fun es => if e ∈ es then es else es ++ [e] }

/-- Adds a silent edge. -/
def addSilent (m : Nfa) (p q : Nat) : Nfa := m.addEdge p ⟨none, q⟩

/-- Adds one edge for each of the given letters. -/
def addLetters (m : Nfa) (p q : Nat) (letters : List Nat) : Nfa :=
  letters.foldl (fun m a => m.addEdge p ⟨some a, q⟩) m

/-- Marks state `p` as accepting. -/
def markAccept (m : Nfa) (p : Nat) (a : Accept) : Nfa :=
  { m with accepts := m.accepts ++ [(p, a)] }

/-- The targets of the silent edges out of `p`. -/
def silentTargets (m : Nfa) (p : Nat) : List Nat :=
  (m.out p).filterMap fun e => if e.letter = none then some e.target else none

/-- The targets of the edges out of `p` that read `a`. -/
def letterTargets (m : Nfa) (p a : Nat) : List Nat :=
  (m.out p).filterMap fun e => if e.letter = some a then some e.target else none

/-- The letters that are read by edges out of `p`. -/
def letters (m : Nfa) (p : Nat) : List Nat :=
  (m.out p).filterMap Edge.letter

/-- The states that can be reached from the given ones along silent edges. -/
def closure (m : Nfa) (states : IdSet) : IdSet :=
  reach m.silentTargets m.size states

/-- The closed set of states after reading the letter `a` in one of the given states. -/
def step (m : Nfa) (states : IdSet) (a : Nat) : IdSet :=
  m.closure (IdSet.ofList (states.toList.flatMap fun p => m.letterTargets p a))

/-- The better of two accepting states that are listed one after the other. -/
def betterAccept (best : Option Accept) (a : Accept) : Option Accept :=
  match best with
  | none => some a
  | some b => if a.priority < b.priority then some a else some b

/-- What the state `p` accepts, if anything. -/
def acceptOf (m : Nfa) (p : Nat) : Option Accept :=
  (m.accepts.find? fun a => a.1 == p).map Prod.snd

/-- What a set of states accepts: that of the smallest priority, in the lowest state on a tie. -/
def bestAccept (m : Nfa) (states : IdSet) : Option Accept :=
  (states.toList.filterMap m.acceptOf).foldl betterAccept none

/-- The closed set of states before anything is read. -/
def startSet (m : Nfa) : IdSet := m.closure (IdSet.single 0)

/-- The automaton run on closed sets of states. -/
def recognizer (m : Nfa) : Recognizer IdSet where
  start := m.startSet
  next states a :=
    let next := m.step states a
    if next = ∅ then none else some next
  accept states := (m.bestAccept states).map Accept.terminal

end Nfa

end ShiftReduce
