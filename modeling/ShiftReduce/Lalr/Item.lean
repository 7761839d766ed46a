import ShiftReduce.Lalr.First

/-!
# Items and their closure

An item is a production with a dot in it and the set of terminals that may follow. The items of a
state are its kernel and the items added by the closure: wherever the dot stands before a
nonterminal, the productions of this nonterminal are added with the dot in front. All items added
for one nonterminal share their lookaheads, so the closure is a list of blocks, one for each
nonterminal, in the order in which the nonterminals are met.

The closure is worked out with a stack of items. An item is put on the stack when it is new and
again whenever its lookaheads have grown.
-/

namespace ShiftReduce

/-- A production and the position of the dot in it. -/
structure Core where
  prod : Nat
  dot : Nat
deriving DecidableEq

/-- An item with its lookaheads. -/
structure Item where
  core : Core
  look : IdSet
deriving DecidableEq

/-- The items added for one nonterminal, by their common lookaheads. -/
structure Block where
  nt : Nat
  look : IdSet
deriving DecidableEq

namespace Core

/-- The symbols from the dot on. -/
def rest (g : Grammar) (c : Core) : List Symbol := (g.rhs c.prod).drop c.dot

/-- The symbol after the dot. -/
def next? (g : Grammar) (c : Core) : Option Symbol := (c.rest g).head?

/-- The order of the items of a kernel: by production, then by the position of the dot. -/
def le (a b : Core) : Bool := a.prod < b.prod || (a.prod == b.prod && a.dot ≤ b.dot)

end Core

/-- Puts an item into a list of items in ascending order of their cores. -/
def insertItem (item : Item) : List Item → List Item
  | [] => [item]
  | other :: items =>
    if item.core.le other.core then item :: other :: items else other :: insertItem item items

/-- The items in ascending order of their cores. -/
def sortItems (items : List Item) : List Item := items.foldr insertItem []

namespace Block

/-- The items of a block. -/
def items (g : Grammar) (b : Block) : List Item :=
  (g.prodsOf b.nt).map fun p => ⟨⟨p, 0⟩, b.look⟩

/-- The lookaheads of the block of a nonterminal, if there is one. -/
def lookOf (blocks : List Block) (nt : Nat) : Option IdSet :=
  (blocks.find? fun b => b.nt == nt).map Block.look

/-- The blocks with more lookaheads for one nonterminal. -/
def grow (blocks : List Block) (nt : Nat) (look : IdSet) : List Block :=
  blocks.map fun b => if b.nt = nt then { b with look := b.look ∪ look } else b

end Block

namespace Closure

/-- An item whose consequences have not been drawn yet. The lookaheads of an added item are those of
its block at the time when it is taken up. -/
inductive Pending where
  | kernel (item : Item)
  | added (nt prod : Nat)
deriving DecidableEq

/-- The item as it stands. -/
def Pending.item (blocks : List Block) : Pending → Item
  | .kernel item => item
  | .added nt prod => ⟨⟨prod, 0⟩, (Block.lookOf blocks nt).getD ∅⟩

/-- Adds what follows from one item: the blocks after it, and the items to take up. -/
def expand (g : Grammar) (fs : FirstSets) (blocks : List Block) (item : Item) :
    List Block × List Pending :=
  match item.core.rest g with
  | .nonterminal nt :: rest =>
    let look := fs.ofSymbols item.look rest
    let items := (g.prodsOf nt).map (Pending.added nt)
    match Block.lookOf blocks nt with
    | none => (blocks ++ [⟨nt, look⟩], items)
    | some old => if look.subset old then (blocks, []) else (Block.grow blocks nt look, items)
  | _ => (blocks, [])

/-- Takes up the items on the stack and those put on it on the way. The last of the items put on the
stack at one time is taken up first. -/
def saturate (g : Grammar) (fs : FirstSets) : Nat → List Pending → List Block → List Block
  | 0, _, blocks => blocks
  | _ + 1, [], blocks => blocks
  | fuel + 1, p :: stack, blocks =>
    let (blocks, items) := expand g fs blocks (p.item blocks)
    saturate g fs fuel (items.reverse ++ stack) blocks

/-- Enough steps: every item of the kernel is taken up once, and every other item once when it is
new and once for each terminal that its lookaheads may grow by. -/
def steps (g : Grammar) (kernel : List Item) : Nat :=
  kernel.length + g.prods.size * (g.terminals.size + 1) + 1

/-- The blocks that the closure of a kernel adds. -/
def ofKernel (g : Grammar) (fs : FirstSets) (kernel : List Item) : List Block :=
  saturate g fs (steps g kernel) (kernel.map Pending.kernel) []

end Closure

end ShiftReduce
