import ShiftReduce.Reach
import ShiftReduce.Grammar.Basic

/-!
# Drafts of grammars

A draft collects symbols, productions and precedence groups in the order of their declaration.
Nothing is checked before the end: `Draft.build` refuses a draft that mentions undeclared symbols,
that puts a terminal into two groups or in which a nonterminal that is needed has no production.
Nonterminals that are not needed are only warned about.
-/

namespace ShiftReduce

/-- A grammar in the making. -/
structure Draft where
  terminals : Array Terminal
  nts : Array Nonterminal
  prods : Array Production
  precs : Array PrecGroup
  /-- The members of the groups: group and terminal, in the order of declaration. -/
  members : List (Nat × Nat)
  error : Option Nat

/-- Why a draft is not a grammar. -/
inductive GrammarError where
  | noStart
  | noProductions (name : String)
  | precedenceRedeclared (name : String)
  | unknownSymbol
deriving DecidableEq

/-- The wording of an error. -/
def GrammarError.message : GrammarError → String
  | .noStart => "no start nonterminal declared"
  | .noProductions name => "nonterminal `" ++ name ++ "` has no productions"
  | .precedenceRedeclared name =>
    "terminal `" ++ name ++ "` is assigned to more than one precedence group"
  | .unknownSymbol => "symbol does not belong to this grammar"

/-- What a survey of the nonterminals finds. -/
inductive Finding where
  /-- A nonterminal cannot be reached from the start. -/
  | unreachable (name : String)
  /-- A nonterminal can be reached and has no production. -/
  | barren (name : String)
deriving DecidableEq

/-- The warning about a nonterminal that is not needed. -/
def unreachableEvent (name : String) : Event :=
  ⟨.warn, "nonterminal is unreachable from the start symbol", [("nonterminal", .text name)]⟩

/-- The first error among the findings, with the warnings before it. -/
def Finding.firstError : List Finding → Logged (Option GrammarError)
  | [] => ⟨none, []⟩
  | .barren name :: _ => ⟨some (.noProductions name), []⟩
  | .unreachable name :: rest =>
    let found := firstError rest
    ⟨found.value, unreachableEvent name :: found.log⟩

namespace Draft

/-- The draft without declarations. -/
def empty : Draft := ⟨#[], #[], #[], #[], [], none⟩

/-- Adds a terminal. -/
def pushTerminal (d : Draft) (t : Terminal) : Draft × Nat :=
  ({ d with terminals := d.terminals.push t }, d.terminals.size)

/-- Declares a terminal by its pattern. -/
def terminal (d : Draft) (name : String) (pattern : Regex) (skip : Bool) : Draft × Nat :=
  d.pushTerminal ⟨name, some pattern, skip, false, none⟩

/-- Declares a terminal for a fixed text. -/
def literal (d : Draft) (name : String) (pattern : Regex) : Draft × Nat :=
  d.pushTerminal ⟨name, some pattern, false, true, none⟩

/-- The terminal that stands for a piece of wrong input. It is declared on the first call. -/
def errorTerminal (d : Draft) : Draft × Nat :=
  match d.error with
  | some t => (d, t)
  | none =>
    let (d, t) := d.pushTerminal ⟨"error", none, false, false, none⟩
    ({ d with error := some t }, t)

/-- Declares a nonterminal. -/
def nonterminal (d : Draft) (name : String) : Draft × Nat :=
  ({ d with nts := d.nts.push ⟨name, []⟩ }, d.nts.size)

/-- Adds a production, also to the list of its nonterminal if that has been declared. -/
def production (d : Draft) (nt : Nat) (symbols : List Symbol) : Draft × Nat :=
  let p := d.prods.size
  ({ d with
    prods := d.prods.push ⟨nt, symbols, none⟩
    nts := d.nts.modify nt fun n => { n with prods := n.prods ++ [p] } }, p)

/-- Gives a production a group of its own. -/
def setPrec (d : Draft) (prod group : Nat) : Draft :=
  { d with prods := d.prods.modify prod fun p => { p with prec := some group } }

/-- Declares a precedence group, which binds tighter than all groups before it. -/
def precGroup (d : Draft) (assoc : Assoc) (terminals : List Nat) : Draft × Nat :=
  let i := d.precs.size
  ({ d with
    precs := d.precs.push ⟨assoc, i⟩
    members := d.members ++ terminals.map fun t => (i, t) }, i)

/-- Gives the members of the groups their groups. -/
def assignGroups : List (Nat × Nat) → Array Terminal → Except GrammarError (Array Terminal)
  | [], ts => .ok ts
  | (group, t) :: rest, ts =>
    match ts[t]? with
    | none => .error .unknownSymbol
    | some terminal =>
      if terminal.prec.isSome then .error (.precedenceRedeclared terminal.name)
      else assignGroups rest (ts.setIfInBounds t { terminal with prec := some group })

/-- Whether a symbol has been declared. -/
def knows (terminals nts : Nat) : Symbol → Bool
  | .terminal t => t < terminals
  | .nonterminal n => n < nts

/-- The group of a symbol, if it is a terminal that has one. -/
def symbolGroup (ts : Array Terminal) : Symbol → Option Nat
  | .terminal t => ts[t]?.bind Terminal.prec
  | .nonterminal _ => none

/-- Checks the symbols of a production and settles its group. -/
def settleProd (ts : Array Terminal) (nts : Nat) (p : Production) :
    Except GrammarError Production :=
  if p.nt < nts ∧ p.symbols.all (knows ts.size nts) then
    .ok { p with prec := p.prec.or (p.symbols.reverse.findSome? (symbolGroup ts)) }
  else .error .unknownSymbol

/-- Checks all symbols of the draft and settles the groups of its terminals and productions. -/
def settle (d : Draft) (start : Nat) : Except GrammarError Draft := do
  if d.nts.size ≤ start then throw .unknownSymbol
  let terminals ← assignGroups d.members d.terminals
  let prods ← d.prods.toList.mapM (settleProd terminals d.nts.size)
  return { d with terminals := terminals, prods := prods.toArray }

/-- The nonterminals on the right-hand sides of the productions of `n`. -/
def mentions (d : Draft) (n : Nat) : List Nat :=
  ((d.nts[n]?.map Nonterminal.prods).getD []).flatMap fun p =>
    ((d.prods[p]?.map Production.symbols).getD []).filterMap fun
      | .nonterminal m => some m
      | .terminal _ => none

/-- The nonterminals that are needed to derive from `start`. -/
def reachable (d : Draft) (start : Nat) : IdSet :=
  reach d.mentions d.nts.size (IdSet.single start)

/-- The findings about the nonterminals, in order. -/
def survey (d : Draft) (start : Nat) : List Finding :=
  let needed := d.reachable start
  d.nts.toList.zipIdx.filterMap fun nt =>
    if nt.2 ∉ needed then some (.unreachable nt.1.name)
    else if nt.1.prods.isEmpty then some (.barren nt.1.name)
    else none

/-- The grammar of a draft that has passed all checks. The terminal for the end of the input is
added last. -/
def finish (d : Draft) (start : Nat) : Grammar :=
  { terminals := d.terminals.push ⟨"$end", none, false, false, none⟩
    nts := d.nts
    prods := d.prods
    precs := d.precs
    start := start
    eof := d.terminals.size
    error := d.error }

/-- Makes a grammar of the draft, with the warnings met before the first error. -/
def construct (d : Draft) (start : Nat) : Logged (Except GrammarError Grammar) :=
  match d.settle start with
  | .error e => ⟨.error e, []⟩
  | .ok d =>
    let found := Finding.firstError (d.survey start)
    match found.value with
    | some e => ⟨.error e, found.log⟩
    | none => ⟨.ok (d.finish start), found.log⟩

/-- Makes a grammar of the draft. -/
def build (d : Draft) (start : Nat) : Except GrammarError Grammar :=
  (d.construct start).value

end Draft

end ShiftReduce
