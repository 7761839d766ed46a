import ShiftReduce.Stable
import ShiftReduce.IdSet
import ShiftReduce.Grammar.Basic

/-!
# First sets

Which nonterminals derive the empty text, and with which terminals the texts that a nonterminal
derives can begin. Both are least fixed points over the productions: a round goes over all
productions once, and the rounds are repeated until nothing is added.
-/

namespace ShiftReduce

/-- The nonterminals that derive the empty text, and the first terminals of each nonterminal. -/
structure FirstSets where
  nullable : IdSet
  first : Array IdSet
deriving DecidableEq

namespace FirstSets

/-- Whether a symbol derives the empty text, if the given nonterminals do. -/
def symbolNullable (nullable : IdSet) : Symbol → Bool
  | .terminal _ => false
  | .nonterminal n => n ∈ nullable

/-- One round: the nonterminals of all productions whose symbols all derive the empty text are
added. -/
def nullableRound (g : Grammar) (nullable : IdSet) : IdSet :=
  g.prods.foldl
    (fun s p => if p.symbols.all (symbolNullable s) then s.insert p.nt else s) nullable

/-- The nonterminals that derive the empty text. -/
def nullableSet (g : Grammar) : IdSet :=
  untilStable (nullableRound g) (g.nts.size + 1) ∅

/-- The first terminals of a nonterminal. -/
def ofNonterminal (fs : FirstSets) (n : Nat) : IdSet := fs.first[n]?.getD ∅

/-- The terminals with which the texts of the symbols can begin, followed by those of `follow` if
all the symbols derive the empty text. -/
def ofSymbols (fs : FirstSets) (follow : IdSet) : List Symbol → IdSet
  | [] => follow
  | .terminal t :: _ => IdSet.single t
  | .nonterminal n :: rest =>
    if n ∈ fs.nullable then fs.ofNonterminal n ∪ fs.ofSymbols follow rest else fs.ofNonterminal n

/-- One round: the first terminals of the right-hand side of every production are added to those of
its nonterminal. -/
def firstRound (g : Grammar) (fs : FirstSets) : FirstSets :=
  g.prods.foldl
    (fun fs p =>
      { fs with first := fs.first.modify p.nt fun s => s ∪ fs.ofSymbols ∅ p.symbols }) fs

/-- The first sets of a grammar. -/
def compute (g : Grammar) : FirstSets :=
  untilStable (firstRound g) (g.nts.size * g.terminals.size + 1)
    ⟨nullableSet g, Array.replicate g.nts.size ∅⟩

end FirstSets

end ShiftReduce
