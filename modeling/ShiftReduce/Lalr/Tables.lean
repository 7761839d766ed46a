import ShiftReduce.Lalr.Cell
import ShiftReduce.Lalr.Collection

/-!
# Tables

The ACTION and GOTO tables of a grammar. The states are taken in order, and in each state the items
in order: every item makes its offers to the cells of the state. The first clash that precedence
does not settle ends the construction with a conflict; the conflicts that it does settle are
recorded as resolutions.
-/

namespace ShiftReduce

/-- A conflict that was settled by precedence. -/
structure Resolution where
  state : Nat
  terminal : Nat
  verdict : Verdict
deriving DecidableEq

/-- A conflict that was not settled, with the names that a reader needs. -/
structure Conflict where
  kind : ConflictKind
  state : Nat
  terminal : Nat
  previous : Action
  new : Action
  terminalName : String
  previousText : String
  newText : String
  items : List String
deriving DecidableEq

/-- The tables of a parser. -/
structure Tables where
  /-- The action of each state on each terminal. -/
  action : Array (Array Action)
  /-- The state after each nonterminal in each state. -/
  goto : Array (Array (Option Nat))
  /-- The nonterminal and the length of each production, the accepting one last. -/
  prods : Array (Nat × Nat)
  start : Nat
  eof : Nat
  /-- The conflicts settled by precedence, in the order in which they were met. -/
  resolutions : List Resolution
deriving DecidableEq

namespace Tables

/-- The number of states. -/
def size (t : Tables) : Nat := t.action.size

/-- What to do in a state on a terminal. -/
def actionAt (t : Tables) (state terminal : Nat) : Action :=
  (t.action[state]?.bind fun row => row[terminal]?).getD .error

/-- The state after a nonterminal. -/
def gotoAt (t : Tables) (state nt : Nat) : Option Nat :=
  (t.goto[state]?.bind fun row => row[nt]?).bind id

/-- The terminals on which something other than an error happens in a state. -/
def expected (t : Tables) (state : Nat) : List Nat :=
  ((t.action[state]?.getD #[]).toList.zipIdx.filter fun a => a.1 ≠ .error).map Prod.snd

/-- What one item of a state offers, by terminal. -/
def offersOf (g : Grammar) (s : State) (item : Item) : List (Nat × Offer) :=
  if Collection.accepts g item.core then [(g.eof, .accept)]
  else
    match item.core.next? g with
    | some (.terminal t) => ((s.move? (.terminal t)).map fun next => (t, Offer.shift next)).toList
    | some (.nonterminal _) => []
    | none => item.look.toList.map fun t => (t, .reduce item.core.prod)

/-- What all items of a state offer, in order. -/
def offers (g : Grammar) (s : State) : List (Nat × Offer) :=
  (s.items g).flatMap (offersOf g s)

/-- The cells of a state and the resolutions up to there. -/
structure Row where
  cells : Array Cell
  resolutions : List Resolution
deriving DecidableEq

/-- A clash in a cell, and the resolutions up to there. -/
structure Halt where
  state : Nat
  terminal : Nat
  clash : Clash
  resolutions : List Resolution
deriving DecidableEq

/-- Takes the offers of state `i` in order. -/
def fillCells (g : Grammar) (i : Nat) : List (Nat × Offer) → Row → Except Halt Row
  | [], row => .ok row
  | (t, o) :: rest, row =>
    match (row.cells[t]?.getD .vacant).offer g t o with
    | .error clash => .error ⟨i, t, clash, row.resolutions⟩
    | .ok (cell, verdict) =>
      fillCells g i rest
        { cells := row.cells.setIfInBounds t cell
          resolutions := row.resolutions ++ (verdict.map fun v => ⟨i, t, v⟩).toList }

/-- The cells of the states filled so far and the resolutions up to there. -/
structure Filled where
  rows : Array (Array Cell)
  resolutions : List Resolution
deriving DecidableEq

/-- Fills the cells of the given states, the next of which is the one after those filled so far. -/
def fillRows (g : Grammar) : List State → Filled → Except Halt Filled
  | [], filled => .ok filled
  | s :: rest, filled =>
    match fillCells g filled.rows.size (offers g s)
      ⟨Array.replicate g.terminals.size .vacant, filled.resolutions⟩ with
    | .error halt => .error halt
    | .ok row => fillRows g rest ⟨filled.rows.push row.cells, row.resolutions⟩

/-- The states after each nonterminal in a state. -/
def gotoRow (g : Grammar) (s : State) : Array (Option Nat) :=
  ((List.range g.nts.size).map fun n => s.move? (.nonterminal n)).toArray

/-- The tables of the filled cells. -/
def ofFilled (g : Grammar) (states : Array State) (filled : Filled) : Tables :=
  { action := filled.rows.map fun row => row.map Cell.action
    goto := states.map (gotoRow g)
    prods := g.prods.map fun p => (p.nt, p.symbols.length)
    start := 0
    eof := g.eof
    resolutions := filled.resolutions }

end Tables

/-- An item as text, with its lookaheads. -/
def Item.text (g : Grammar) (item : Item) : String :=
  g.itemText item.core.prod (some item.core.dot) ++ "  [" ++
    " ".intercalate (item.look.toList.map g.terminalName) ++ "]"

/-- The conflict in a halted construction. -/
def Conflict.ofHalt (g : Grammar) (states : Array State) (halt : Tables.Halt) : Conflict :=
  { kind := halt.clash.kind
    state := halt.state
    terminal := halt.terminal
    previous := halt.clash.previous
    new := halt.clash.new
    terminalName := g.terminalName halt.terminal
    previousText := halt.clash.previous.describe g
    newText := halt.clash.new.describe g
    items := (((states[halt.state]?).map (State.items g)).getD []).map (Item.text g) }

namespace Tables

/-- The event that tells about the states. -/
def statesEvent (g : Grammar) (states : Array State) : Event :=
  ⟨.debug, "built LALR(1) item sets",
    [("states", .count states.size), ("prods", .count g.prods.size)]⟩

/-- The event that tells about a resolution. -/
def resolutionEvent (r : Resolution) : Event :=
  ⟨.debug, "conflict resolved by precedence",
    [("state", .count r.state), ("terminal", .count r.terminal),
      ("previous", .text r.verdict.previous.text), ("new", .text r.verdict.new.text),
      ("chosen", .text r.verdict.chosen.text)]⟩

/-- The event that tells about the tables. -/
def tablesEvent (g : Grammar) (t : Tables) : Event :=
  ⟨.debug, "built ACTION and GOTO tables",
    [("action_cells", .count (t.action.size * g.terminals.size)),
      ("resolutions", .count t.resolutions.length)]⟩

/-- Builds the tables of a grammar, which is augmented first, and tells what was built. -/
def construct (g : Grammar) : Logged (Except Conflict Tables) :=
  let g := g.augment
  let states := Collection.ofGrammar g
  let told := statesEvent g states
  match fillRows g states.toList ⟨#[], []⟩ with
  | .error halt =>
    ⟨.error (Conflict.ofHalt g states halt), told :: halt.resolutions.map resolutionEvent⟩
  | .ok filled =>
    let t := ofFilled g states filled
    ⟨.ok t, told :: t.resolutions.map resolutionEvent ++ [tablesEvent g t]⟩

/-- Builds the tables of a grammar. -/
def build (g : Grammar) : Except Conflict Tables := (construct g).value

end Tables

end ShiftReduce
