import ShiftReduce.Log
import ShiftReduce.Regex.Error
import ShiftReduce.Automaton.Fragment
import ShiftReduce.Automaton.Displaced

/-!
# Lexers

A lexer is built from the patterns of its terminals. The patterns become one automaton over the
alphabet that they tell apart, which is either kept and run on sets of states or made deterministic
ahead of time. Both ways give the same tokens. No pattern may match the empty text.
-/

namespace ShiftReduce

/-- The pattern of a terminal. Of the terminals that match the same longest text the one with the
smallest priority wins. The matches of a skipped terminal give no token. -/
structure Pattern where
  terminal : Nat
  regex : Regex
  priority : Nat
  skip : Bool

/-- How the automaton of a lexer is run. -/
inductive Runtime where
  /-- A table of a deterministic automaton, made ahead of time. -/
  | tabular
  /-- The nondeterministic automaton, run on sets of states. -/
  | nfa
deriving DecidableEq

/-- The name of a way to run the automaton. -/
def Runtime.name : Runtime → String
  | .tabular => "Tabular"
  | .nfa => "Nfa"

/-- The automaton of a lexer. -/
inductive LexerAutomaton where
  | tabular (t : Displaced)
  | nfa (m : Nfa)

/-- A lexer. The terminal `eof` marks the end of the input. -/
structure Lexer where
  automaton : LexerAutomaton
  alphabet : Alphabet
  skip : List Nat
  eof : Nat

/-- Why a lexer cannot be built. -/
inductive LexerError where
  | noTerminals
  | invalidPattern (terminal : Nat) (error : Regex.Error)
deriving DecidableEq

/-- The wording of an error. -/
def LexerError.message : LexerError → String
  | .noTerminals => "no terminals declared"
  | .invalidPattern terminal error =>
    "invalid pattern for terminal #" ++ toString terminal ++ ": " ++ error.message

namespace Lexer

/-- The way in which the automaton is run. -/
def runtime (lx : Lexer) : Runtime :=
  match lx.automaton with
  | .tabular _ => .tabular
  | .nfa _ => .nfa

/-- Adds the fragment of a pattern behind a silent edge from the first state. -/
def addPattern (a : Alphabet) (m : Nfa) (p : Pattern) : Nfa :=
  let entry := m.size
  let (exit, m) := Fragment.add a p.regex entry (m.addState.addSilent 0 entry)
  m.markAccept exit ⟨p.priority, p.terminal⟩

/-- The automaton of all patterns. -/
def combine (a : Alphabet) (patterns : List Pattern) : Nfa :=
  patterns.foldl (addPattern a) Nfa.single

/-- The alphabet that the patterns tell apart. -/
def alphabetOf (patterns : List Pattern) : Alphabet :=
  Alphabet.ofRegexes (patterns.map Pattern.regex)

/-- The terminals whose matches are skipped. -/
def skipped (patterns : List Pattern) : List Nat :=
  (patterns.filter Pattern.skip).map Pattern.terminal

/-- The first reason not to build a lexer from the patterns. -/
def refusal (patterns : List Pattern) : Option LexerError :=
  if patterns.isEmpty then some .noTerminals
  else
    (patterns.find? fun p => p.regex.acceptsEmpty).map fun p =>
      .invalidPattern p.terminal ⟨.matchesEmpty, 0⟩

/-- The event that tells about the automaton of all patterns. -/
def nfaEvent (patterns : List Pattern) (a : Alphabet) (m : Nfa) : Event :=
  ⟨.debug, "built lexer NFA",
    [("terminals", .count patterns.length), ("nfa_states", .count m.size),
      ("char_intervals", .count a.size)]⟩

/-- The event that tells about the table of the deterministic automaton. -/
def tableEvent (d : Dfa) (t : Displaced) : Event :=
  ⟨.debug, "built lexer DFA table",
    [("dfa_states", .count d.size), ("table_len", .count t.slots.size)]⟩

/-- Builds a lexer and tells what was built. -/
def construct (patterns : List Pattern) (eof : Nat) (runtime : Runtime) :
    Except LexerError (Logged Lexer) :=
  match refusal patterns with
  | some e => .error e
  | none =>
    let a := alphabetOf patterns
    let m := combine a patterns
    let told := nfaEvent patterns a m
    match runtime with
    | .nfa => .ok ⟨⟨.nfa m, a, skipped patterns, eof⟩, [told]⟩
    | .tabular =>
      let d := Dfa.ofNfa m
      let t := Displaced.ofDfa d a.size
      .ok ⟨⟨.tabular t, a, skipped patterns, eof⟩, [told, tableEvent d t]⟩

/-- Builds a lexer. -/
def build (patterns : List Pattern) (eof : Nat) (runtime : Runtime) : Except LexerError Lexer :=
  (construct patterns eof runtime).map Logged.value

end Lexer

end ShiftReduce
