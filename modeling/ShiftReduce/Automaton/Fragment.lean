import ShiftReduce.Automaton.Alphabet
import ShiftReduce.Automaton.Nfa

/-!
# Fragments of regular expressions

A regular expression becomes a fragment of an automaton: new states and edges through which the exit
of the fragment is reached from its entry exactly by the texts that the expression matches.
`Fragment.add` takes the entry, adds the fragment and returns its exit. A fragment never adds an
edge back into its entry, so that fragments can share an entry and be put one after the other. This
is why an optional part and a loop are entered through a state of their own.
-/

namespace ShiftReduce.Fragment

/-- A builder of fragments: it takes the entry and the automaton so far, and returns the exit and
the automaton with the fragment. -/
abbrev Builder := Nat → Nfa → Nat × Nfa

/-- A fragment that reads one character of the given ranges. -/
def addLeaf (a : Alphabet) (ranges : List CodeRange) : Builder := fun entry m =>
  let exit := m.size
  (exit, ranges.foldl
    (fun m r => m.addLetters entry exit
      (List.range' (a.letterOf r.1) (a.letterOf r.2 - a.letterOf r.1)))
    m.addState)

/-- A fragment that goes through `inner` any number of times. Its exit is the state that `inner`
starts from and comes back to. -/
def addLoop (inner : Builder) : Builder := fun entry m =>
  let exit := m.size
  let (last, m) := inner exit (m.addState.addSilent entry exit)
  (exit, m.addSilent last exit)

/-- A fragment that goes through `inner` at least once. -/
def addLoop1 (inner : Builder) : Builder := fun entry m =>
  let first := m.size
  let (last, m) := inner first (m.addState.addSilent entry first)
  (last, m.addSilent last first)

/-- A fragment that goes through `inner` or around it. -/
def addOptional (inner : Builder) : Builder := fun entry m =>
  let first := m.size
  let (last, m) := inner first (m.addState.addSilent entry first)
  let exit := m.size
  (exit, (m.addState.addSilent last exit).addSilent entry exit)

/-- A fragment that goes through `inner` exactly `n` times. -/
def addCopies (inner : Builder) : Nat → Builder
  | 0, entry, m => (entry, m)
  | n + 1, entry, m =>
    let (last, m) := inner entry m
    addCopies inner n last m

/-- Adds `n` copies of `inner` one after the other, each of which may be the last one before
`exit`. -/
def addShortcuts (inner : Builder) (exit : Nat) : Nat → Nat → Nfa → Nfa
  | 0, _, m => m
  | n + 1, entry, m =>
    let (last, m) := inner entry m
    addShortcuts inner exit n last (m.addSilent last exit)

/-- A fragment that goes through `inner` at least `min` times and at most `max` times. -/
def addRepeated (inner : Builder) (min : Nat) (max : Option Nat) : Builder := fun entry m =>
  let (last, m) := addCopies inner min entry m
  match max with
  | none => addLoop inner last m
  | some max =>
    let exit := m.size
    (exit, addShortcuts inner exit (max - min) last (m.addState.addSilent last exit))

mutual

/-- Adds the fragment of an expression. -/
def add (a : Alphabet) : Regex → Builder
  | .empty => fun entry m => (entry, m)
  | .any => addLeaf a ((Regex.charRanges .any).getD [])
  | .char c => addLeaf a ((Regex.charRanges (.char c)).getD [])
  | .set negated items => addLeaf a ((Regex.charRanges (.set negated items)).getD [])
  | .cls k => addLeaf a ((Regex.charRanges (.cls k)).getD [])
  | .alt rs => fun entry m => (m.size, addAlternatives a rs entry m.size m.addState)
  | .concat rs => addSequence a rs
  | .optional r => addOptional (add a r)
  | .many r => addLoop (add a r)
  | .many1 r => addLoop1 (add a r)
  | .repeated r min max => addRepeated (add a r) min max

/-- Adds the fragments of alternatives between one entry and one exit. -/
def addAlternatives (a : Alphabet) : List Regex → Nat → Nat → Nfa → Nfa
  | [], _, _, m => m
  | r :: rs, entry, exit, m =>
    let (last, m) := add a r entry m
    addAlternatives a rs entry exit (m.addSilent last exit)

/-- Adds the fragments of a sequence one after the other. -/
def addSequence (a : Alphabet) : List Regex → Builder
  | [] => fun entry m => (entry, m)
  | r :: rs => fun entry m =>
    let (last, m) := add a r entry m
    addSequence a rs last m

end

end ShiftReduce.Fragment
