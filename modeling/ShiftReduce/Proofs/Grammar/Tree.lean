import ShiftReduce.Lexer.Token
import ShiftReduce.Proofs.Grammar.Derivation

/-!
# Derivation trees

A tree has words at its leaves, that is, terminals with their texts, and productions at its other
nodes. `Tree.IsDerivation` says that it follows the productions of a grammar, `Tree.frontier` lists
its words from left to right, and `Tree.reductions` lists its productions from the bottom up and
from left to right, which is the order in which a parser reduces.
-/

namespace ShiftReduce

/-- A terminal with its text. -/
abbrev Word := Nat × String

/-- The terminal of a token with its text. -/
def Token.word (t : Token) : Word := (t.terminal, t.text)

/-- A derivation tree. -/
inductive Tree where
  | leaf (word : Word)
  | node (prod : Nat) (children : List Tree)

namespace Tree

variable {g : Grammar}

/-- The symbol that a tree derives from. -/
def root (g : Grammar) : Tree → Symbol
  | leaf word => .terminal word.1
  | node prod _ => .nonterminal (g.lhs prod)

mutual

/-- The words of a tree from left to right. -/
def frontier : Tree → List Word
  | leaf word => [word]
  | node _ children => frontierAll children

/-- The words of some trees from left to right. -/
def frontierAll : List Tree → List Word
  | [] => []
  | tree :: trees => frontier tree ++ frontierAll trees

end

mutual

/-- The productions of a tree, each after those of its subtrees. -/
def reductions : Tree → List Nat
  | leaf _ => []
  | node prod children => reductionsAll children ++ [prod]

/-- The productions of some trees, one tree after the other. -/
def reductionsAll : List Tree → List Nat
  | [] => []
  | tree :: trees => reductions tree ++ reductionsAll trees

end

/-- The children of every node are those that its production asks for. -/
inductive IsDerivation (g : Grammar) : Tree → Prop
  | leaf (word : Word) : IsDerivation g (.leaf word)
  | node {prod : Nat} {children : List Tree} (hprod : prod < g.prods.size)
    (hroots : children.map (root g) = g.rhs prod)
    (hchildren : ∀ child ∈ children, IsDerivation g child) : IsDerivation g (.node prod children)

/-- The tree is a derivation tree of the start symbol, and its words are the given ones. -/
def Parses (g : Grammar) (tree : Tree) (words : List Word) : Prop :=
  tree.IsDerivation g ∧ tree.root g = .nonterminal g.start ∧ tree.frontier = words

@[simp] theorem frontierAll_append (trees trees' : List Tree) :
    frontierAll (trees ++ trees') = frontierAll trees ++ frontierAll trees' := by
  induction trees with
  | nil => rfl
  | cons tree trees ih => rw [List.cons_append, frontierAll, frontierAll, ih, List.append_assoc]

@[simp] theorem frontierAll_singleton (tree : Tree) : frontierAll [tree] = frontier tree := by
  rw [frontierAll, frontierAll, List.append_nil]

end Tree

end ShiftReduce
