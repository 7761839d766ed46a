import ShiftReduce.Lexer.Basic

/-!
# Grammars

A context-free grammar with the patterns of its terminals and its precedence groups. Terminals,
nonterminals, productions and groups are numbered from zero in the order of their declaration, and
the terminal that marks the end of the input is the last one. Look-ups are total: what a number that
names nothing stands for is empty.
-/

namespace ShiftReduce

/-- A symbol on the right-hand side of a production. -/
inductive Symbol where
  | nonterminal (n : Nat)
  | terminal (t : Nat)
deriving DecidableEq

/-- How operators of one precedence group associate. -/
inductive Assoc where
  | left
  | right
  | none
deriving DecidableEq

/-- A precedence group. The groups of higher level bind tighter. -/
structure PrecGroup where
  assoc : Assoc
  level : Nat
deriving DecidableEq

/-- A terminal. One without a pattern is never found by the lexer. A literal terminal wins ties
against every terminal that is none. -/
structure Terminal where
  name : String
  pattern : Option Regex
  skip : Bool
  literal : Bool
  prec : Option Nat

/-- A nonterminal with its productions. -/
structure Nonterminal where
  name : String
  prods : List Nat
deriving DecidableEq

/-- A production. Its group is the one it was given, or else that of the last of its terminals that
has one. -/
structure Production where
  nt : Nat
  symbols : List Symbol
  prec : Option Nat
deriving DecidableEq

/-- A grammar. -/
structure Grammar where
  terminals : Array Terminal
  nts : Array Nonterminal
  prods : Array Production
  precs : Array PrecGroup
  start : Nat
  eof : Nat
  error : Option Nat

namespace Grammar

/-- The name of a terminal. -/
def terminalName (g : Grammar) (t : Nat) : String :=
  (g.terminals[t]?.map Terminal.name).getD ""

/-- The name of a nonterminal. -/
def ntName (g : Grammar) (n : Nat) : String :=
  (g.nts[n]?.map Nonterminal.name).getD ""

/-- The name of a symbol. -/
def symbolName (g : Grammar) : Symbol → String
  | .terminal t => g.terminalName t
  | .nonterminal n => g.ntName n

/-- The left-hand side of a production. -/
def lhs (g : Grammar) (p : Nat) : Nat :=
  (g.prods[p]?.map Production.nt).getD 0

/-- The right-hand side of a production. -/
def rhs (g : Grammar) (p : Nat) : List Symbol :=
  (g.prods[p]?.map Production.symbols).getD []

/-- The productions of a nonterminal. -/
def prodsOf (g : Grammar) (n : Nat) : List Nat :=
  (g.nts[n]?.map Nonterminal.prods).getD []

/-- The group with the given number. -/
def group (g : Grammar) (i : Nat) : Option PrecGroup := g.precs[i]?

/-- The group of a terminal, if it has one. -/
def terminalPrec (g : Grammar) (t : Nat) : Option PrecGroup :=
  (g.terminals[t]?.bind Terminal.prec).bind g.group

/-- The group of a production, if it has one. -/
def prodPrec (g : Grammar) (p : Nat) : Option PrecGroup :=
  (g.prods[p]?.bind Production.prec).bind g.group

/-- A production as text, with a dot before the symbol at `dot`, if given, or after the last one. -/
def itemText (g : Grammar) (p : Nat) (dot : Option Nat) : String :=
  let symbols := g.rhs p
  let words := (symbols.zipIdx.flatMap fun s =>
    if dot = some s.2 then [".", g.symbolName s.1] else [g.symbolName s.1])
  let words := if dot = some symbols.length then words ++ ["."] else words
  g.ntName (g.lhs p) ++ " ->" ++ String.join (words.map (" " ++ ·))

/-- A production as text. -/
def prodText (g : Grammar) (p : Nat) : String := g.itemText p none

/-- The patterns for the lexer. Literals come first by priority, then all other terminals, each in
the order of declaration. -/
def patterns (g : Grammar) : List Pattern :=
  g.terminals.toList.zipIdx.filterMap fun t =>
    t.1.pattern.map fun regex =>
      { terminal := t.2
        regex := regex
        priority := if t.1.literal then t.2 else g.terminals.size + t.2
        skip := t.1.skip }

/-- The grammar as text, one line for each nonterminal. -/
def render (g : Grammar) : String :=
  String.join (g.nts.toList.map fun nt =>
    let alternatives := nt.prods.map fun p => " ".intercalate ((g.rhs p).map g.symbolName)
    nt.name ++ " = " ++ " | ".intercalate alternatives ++ "\n")

/-- The grammar with one more production, `S' -> S $end`, for a new first symbol `S'`. The numbers
of all other symbols and productions stay as they are, and the new ones are the last. -/
def augment (g : Grammar) : Grammar :=
  { g with
    nts := g.nts.push ⟨g.ntName g.start ++ "'", [g.prods.size]⟩
    prods := g.prods.push ⟨g.nts.size, [.nonterminal g.start, .terminal g.eof], none⟩
    start := g.nts.size }

/-- The last production, which in an augmented grammar is the one that accepts. -/
def acceptProd (g : Grammar) : Nat := g.prods.size - 1

end Grammar

end ShiftReduce
