import ShiftReduce.Regex.Escape
import ShiftReduce.Regex.Reader
import ShiftReduce.Parser.Basic

/-!
# Blueprints of parsers

A blueprint collects the declarations for a parser: terminals with their values, literals, ignored
patterns, nonterminals, productions with their rules and precedence groups. A literal is declared
where it is first mentioned. A malformed pattern is not reported where it is declared but when the
parser is made, and of several the first one counts.
-/

namespace ShiftReduce

/-- Choices for the lexer. -/
structure Settings where
  runtime : Runtime
  /-- Whether the texts of literals are taken as they are, not as patterns. -/
  escapeLiterals : Bool
deriving DecidableEq

/-- A terminal in a declaration: one declared before, or a literal. -/
inductive TerminalUse where
  | declared (t : Nat)
  | literal (text : String)
deriving DecidableEq

/-- A symbol in the declaration of a production. -/
inductive Part where
  | terminal (t : TerminalUse)
  | nonterminal (n : Nat)
deriving DecidableEq

/-- The declarations for a parser. -/
structure Blueprint (α : Type) where
  draft : Draft
  /-- By terminal: how the text of a token becomes a value, if the terminal has a way of its own. -/
  values : Array (Option (String → α))
  /-- The literals by their texts. -/
  literals : List (String × Nat)
  /-- By production. -/
  rules : Array (ProdRule α)
  /-- How the texts of all other terminals become values. -/
  literalValue : Option (String → α)
  start : Option Nat
  settings : Settings
  /-- The first malformed pattern and what is wrong with it. -/
  fault : Option (String × Regex.Error)

namespace Blueprint

variable {α : Type}

/-- The blueprint without declarations. -/
def empty : Blueprint α := ⟨Draft.empty, #[], [], #[], none, none, ⟨.tabular, true⟩, none⟩

/-- Reads a pattern. A malformed one is noted and replaced. -/
def readPattern (b : Blueprint α) (pattern : String) : Blueprint α × Regex :=
  match Regex.parse pattern with
  | .ok r => (b, r)
  | .error e => ({ b with fault := b.fault.or (some (pattern, e)) }, .empty)

/-- Declares a terminal by its pattern, with its way of making values. -/
def terminal (b : Blueprint α) (pattern : String) (value : String → α) : Blueprint α × Nat :=
  let (b, regex) := b.readPattern pattern
  let (draft, t) := b.draft.terminal pattern regex false
  ({ b with draft := draft, values := b.values.push (some value) }, t)

/-- The terminal for a fixed text. It is declared on the first call. -/
def literal (b : Blueprint α) (text : String) : Blueprint α × Nat :=
  match b.literals.lookup text with
  | some t => (b, t)
  | none =>
    let (b, regex) :=
      b.readPattern (if b.settings.escapeLiterals then Regex.escape text else text)
    let (draft, t) := b.draft.literal ("'" ++ text ++ "'") regex
    ({ b with
      draft := draft
      values := b.values.push none
      literals := b.literals ++ [(text, t)] }, t)

/-- Declares a pattern whose matches are skipped. -/
def ignore (b : Blueprint α) (pattern : String) : Blueprint α :=
  let (b, regex) := b.readPattern pattern
  let (draft, _) := b.draft.terminal pattern regex true
  { b with draft := draft, values := b.values.push none }

/-- The terminal that stands for a piece of wrong input. It is declared on the first call. -/
def errorToken (b : Blueprint α) : Blueprint α × Nat :=
  let (draft, t) := b.draft.errorTerminal
  let values :=
    if b.draft.terminals.size < draft.terminals.size then b.values.push none else b.values
  ({ b with draft := draft, values := values }, t)

/-- Declares a nonterminal. -/
def nonterminal (b : Blueprint α) (name : String) : Blueprint α × Nat :=
  let (draft, n) := b.draft.nonterminal name
  ({ b with draft := draft }, n)

/-- The terminal that is meant. A literal is declared if need be. -/
def useTerminal (b : Blueprint α) : TerminalUse → Blueprint α × Nat
  | .declared t => (b, t)
  | .literal text => b.literal text

/-- The symbol that is meant. A literal is declared if need be. -/
def usePart (b : Blueprint α) : Part → Blueprint α × Symbol
  | .nonterminal n => (b, .nonterminal n)
  | .terminal t =>
    let (b, t) := b.useTerminal t
    (b, .terminal t)

/-- The symbols that are meant, from left to right. -/
def useParts (b : Blueprint α) : List Part → Blueprint α × List Symbol
  | [] => (b, [])
  | part :: parts =>
    let (b, symbol) := b.usePart part
    let (b, symbols) := b.useParts parts
    (b, symbol :: symbols)

/-- The terminals that are meant, from left to right. -/
def useTerminals (b : Blueprint α) : List TerminalUse → Blueprint α × List Nat
  | [] => (b, [])
  | use :: uses =>
    let (b, t) := b.useTerminal use
    let (b, ts) := b.useTerminals uses
    (b, t :: ts)

/-- Adds a production, which takes the value of its first symbol unless it is given another rule. -/
def production (b : Blueprint α) (nt : Nat) (parts : List Part) : Blueprint α × Nat :=
  let (b, symbols) := b.useParts parts
  let (draft, p) := b.draft.production nt symbols
  ({ b with draft := draft, rules := b.rules.push ⟨.first, none⟩ }, p)

/-- Gives a production a rule. -/
def setRule (b : Blueprint α) (prod : Nat) (rule : Rule α) : Blueprint α :=
  { b with rules := b.rules.modify prod fun r => { r with rule := rule } }

/-- Gives a production a handler for the error that it is reduced after. -/
def setOnError (b : Blueprint α) (prod : Nat) (handler : ParseError → List α → α) : Blueprint α :=
  { b with rules := b.rules.modify prod fun r => { r with onError := some handler } }

/-- Gives a production a precedence group. -/
def setPrec (b : Blueprint α) (prod group : Nat) : Blueprint α :=
  { b with draft := b.draft.setPrec prod group }

/-- Declares a precedence group, which binds tighter than all groups before it. -/
def precGroup (b : Blueprint α) (assoc : Assoc) (terminals : List TerminalUse) :
    Blueprint α × Nat :=
  let (b, ts) := b.useTerminals terminals
  let (draft, i) := b.draft.precGroup assoc ts
  ({ b with draft := draft }, i)

/-- Sets how the texts of literals, and of wrong input, become values. -/
def setLiteralValue (b : Blueprint α) (value : String → α) : Blueprint α :=
  { b with literalValue := some value }

/-- Chooses how the lexer is run. -/
def setRuntime (b : Blueprint α) (runtime : Runtime) : Blueprint α :=
  { b with settings := { b.settings with runtime := runtime } }

/-- Chooses whether the literals declared from now on are taken as they are. -/
def setEscapeLiterals (b : Blueprint α) (escape : Bool) : Blueprint α :=
  { b with settings := { b.settings with escapeLiterals := escape } }

/-- Sets the start symbol, which is otherwise the first nonterminal. -/
def setStart (b : Blueprint α) (nt : Nat) : Blueprint α := { b with start := some nt }

/-- The start symbol, if there is one. -/
def start? (b : Blueprint α) : Option Nat :=
  b.start.or (if b.draft.nts.isEmpty then none else some 0)

/-- Why a rule does not go with its production. -/
def ruleFault (g : Grammar) (p : Nat) (rule : Rule α) : Option ConstructionError :=
  let length := (g.rhs p).length
  match rule with
  | .first => if length = 0 then some (.missingRule (g.prodText p)) else none
  | .index i => if length ≤ i then some (.indexOutOfRange (g.prodText p) i length) else none
  | .apply _ => none

/-- The first rule that does not go with its production. -/
def firstRuleFault (g : Grammar) (rules : Array (ProdRule α)) : Option ConstructionError :=
  rules.toList.zipIdx.findSome? fun r => ruleFault g r.2 r.1.rule

/-- The terminals on the right-hand sides of all productions, in order. -/
def usedTerminals (g : Grammar) : List Nat :=
  g.prods.toList.flatMap fun p => p.symbols.filterMap fun
    | .terminal t => some t
    | .nonterminal _ => none

/-- Gives every terminal that is used a way of making values. -/
def fillValues (g : Grammar) (literalValue : Option (String → α)) :
    List Nat → Array (Option (String → α)) →
      Except ConstructionError (Array (Option (String → α)))
  | [], values => .ok values
  | t :: ts, values =>
    match values[t]?.bind id, literalValue with
    | some _, _ => fillValues g literalValue ts values
    | none, some value => fillValues g literalValue ts (values.setIfInBounds t (some value))
    | none, none => .error (.missingLiteralValue (g.terminalName t))

/-- The event that tells about a parser. -/
def parserEvent (g : Grammar) (tables : Tables) (runtime : Runtime) : Event :=
  ⟨.debug, "created parser",
    [("terminals", .count g.terminals.size), ("nonterminals", .count g.nts.size),
      ("productions", .count g.prods.size), ("states", .count tables.size),
      ("runtime", .text runtime.name)]⟩

/-- Makes the lexer and the tables of a checked grammar. -/
def assemble (b : Blueprint α) (g : Grammar) (values : Array (Option (String → α))) :
    Logged (Except ConstructionError (Parser α)) :=
  match Lexer.construct g.patterns g.eof b.settings.runtime with
  | .error e => ⟨.error (.lexer e), []⟩
  | .ok lexer =>
    let tables := Tables.construct g
    match tables.value with
    | .error conflict => ⟨.error (.ambiguous conflict), lexer.log ++ tables.log⟩
    | .ok t =>
      ⟨.ok ⟨g, lexer.value, t, values, b.rules⟩,
        lexer.log ++ tables.log ++ [parserEvent g t b.settings.runtime]⟩

/-- Checks the rules and the values, then makes the parser of a grammar. -/
def complete (b : Blueprint α) (g : Grammar) : Logged (Except ConstructionError (Parser α)) :=
  match firstRuleFault g b.rules with
  | some e => ⟨.error e, []⟩
  | none =>
    match fillValues g b.literalValue (usedTerminals g) b.values with
    | .error e => ⟨.error e, []⟩
    | .ok values => b.assemble g values

/-- Makes the parser, and tells what was built on the way. -/
def construct (b : Blueprint α) : Logged (Except ConstructionError (Parser α)) :=
  match b.fault, b.start? with
  | some (pattern, e), _ => ⟨.error (.invalidPattern pattern e), []⟩
  | none, none => ⟨.error (.grammar .noStart), []⟩
  | none, some start =>
    let grammar := b.draft.construct start
    match grammar.value with
    | .error e => ⟨.error (.grammar e), grammar.log⟩
    | .ok g =>
      let parser := b.complete g
      ⟨parser.value, grammar.log ++ parser.log⟩

/-- Makes the parser. -/
def build (b : Blueprint α) : Except ConstructionError (Parser α) := b.construct.value

end Blueprint

end ShiftReduce
