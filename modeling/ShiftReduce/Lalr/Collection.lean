import ShiftReduce.Lalr.Item

/-!
# The collection of states

The states of the LALR(1) automaton of an augmented grammar. A state is found by the cores of its
kernel: two kernels with the same cores are one state, whose lookaheads are united. The states to
work on wait in a queue. A state goes back into the queue whenever the lookaheads of its kernel have
grown, so that its closure and its moves are made again.
-/

namespace ShiftReduce

/-- A state: the items it was made from, in ascending order of their cores, the blocks that the
closure adds, and the states that it leads to, nonterminals before terminals. -/
structure State where
  kernel : List Item
  blocks : List Block
  moves : List (Symbol × Nat)
deriving DecidableEq, Inhabited

namespace State

/-- The state of a kernel before it has been worked on. -/
def ofKernel (kernel : List Item) : State := ⟨kernel, [], []⟩

/-- The cores of the kernel, by which a state is found. -/
def cores (s : State) : List Core := s.kernel.map Item.core

/-- All items of a state: the kernel, then the items of the blocks. -/
def items (g : Grammar) (s : State) : List Item :=
  s.kernel ++ s.blocks.flatMap (Block.items g)

/-- The state that a symbol leads to. -/
def move? (s : State) (x : Symbol) : Option Nat :=
  (s.moves.find? fun m => m.1 == x).map Prod.snd

end State

/-- The states found so far and the queue of those to work on. -/
structure Collection where
  states : Array State
  queue : List Nat
deriving DecidableEq

namespace Collection

/-- Whether an item accepts on the end of the input, which is then not read over. -/
def accepts (g : Grammar) (c : Core) : Bool := c.prod == g.acceptProd && c.dot == 1

/-- The items of a state after reading over the symbol `x`. -/
def advance (g : Grammar) (items : List Item) (x : Symbol) : List Item :=
  sortItems (items.filterMap fun item =>
    if item.core.next? g = some x ∧ !accepts g item.core then
      some ⟨⟨item.core.prod, item.core.dot + 1⟩, item.look⟩
    else none)

/-- All symbols of a grammar, nonterminals before terminals. -/
def symbols (g : Grammar) : List Symbol :=
  (List.range g.nts.size).map Symbol.nonterminal ++
    (List.range g.terminals.size).map Symbol.terminal

/-- The kernels that the items of a state lead to, by symbol. -/
def kernels (g : Grammar) (items : List Item) : List (Symbol × List Item) :=
  ((symbols g).map fun x => (x, advance g items x)).filter fun k => !k.2.isEmpty

/-- Adds the lookaheads of `new` to those of the kernel with the same cores. -/
def mergeKernel (kernel new : List Item) : List Item :=
  List.zipWith (fun a b => { a with look := a.look ∪ b.look }) kernel new

/-- Stores a kernel: makes a new state, or adds to the lookaheads of the state with the same cores.
A state that is new or has changed joins the queue, unless it waits there already. -/
def store (c : Collection) (kernel : List Item) : Collection × Nat :=
  let enqueue (states : Array State) (i : Nat) : Collection :=
    ⟨states, if i ∈ c.queue then c.queue else c.queue ++ [i]⟩
  match c.states.findIdx? fun s => s.cores == kernel.map Item.core with
  | none => (enqueue (c.states.push (State.ofKernel kernel)) c.states.size, c.states.size)
  | some i =>
    let old := (c.states[i]?.map State.kernel).getD []
    let merged := mergeKernel old kernel
    if merged = old then (c, i)
    else (enqueue (c.states.modify i fun s => { s with kernel := merged }) i, i)

/-- Stores one of the kernels that a state leads to, and notes the move. -/
def storeMove (acc : Collection × List (Symbol × Nat)) (k : Symbol × List Item) :
    Collection × List (Symbol × Nat) :=
  let (c, i) := acc.1.store k.2
  (c, acc.2 ++ [(k.1, i)])

/-- Works on state `i`: makes its closure and its moves. -/
def process (g : Grammar) (fs : FirstSets) (c : Collection) (i : Nat) : Collection :=
  match c.states[i]? with
  | none => c
  | some s =>
    let s := { s with blocks := Closure.ofKernel g fs s.kernel }
    let c := { c with states := c.states.setIfInBounds i s }
    let (c, moves) := (kernels g (s.items g)).foldl storeMove (c, [])
    { c with states := c.states.modify i fun s => { s with moves := moves } }

/-- Works on the states in the queue and on those that join it on the way. -/
def run (g : Grammar) (fs : FirstSets) : Nat → Collection → Collection
  | 0, c => c
  | fuel + 1, c =>
    match c.queue with
    | [] => c
    | i :: queue => run g fs fuel (process g fs { c with queue := queue } i)

/-- The collection with only the first state, `S' -> . S $end`. -/
def initial (g : Grammar) : Collection :=
  ⟨#[State.ofKernel [⟨⟨g.acceptProd, 0⟩, IdSet.single g.eof⟩]], [0]⟩

/-- The number of cores: the positions of the dot in all productions. -/
def coreCount (g : Grammar) : Nat :=
  g.prods.toList.foldr (fun p count => p.symbols.length + 1 + count) 0

/-- Enough steps: there are no more states than sets of cores, and a state comes back into the queue
only if a terminal is added to the lookaheads of one of its items. -/
def steps (g : Grammar) : Nat :=
  (1 <<< coreCount g) * (coreCount g * g.terminals.size + 1) + 1

/-- The states of an augmented grammar. -/
def ofGrammar (g : Grammar) : Array State :=
  (run g (FirstSets.compute g) (steps g) (initial g)).states

end Collection

end ShiftReduce
