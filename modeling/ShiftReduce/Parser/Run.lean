import ShiftReduce.Parser.Basic

/-!
# Running a parser

A parse goes step by step. A step looks at the state on top of the stack and at the next token: it
shifts the token, reduces by a production, accepts, or deals with an error. If the grammar has a
terminal for wrong input, an error is recovered from: the stack is cut back to a state that can
shift this terminal, and tokens are discarded until one has an action again. Until a token has been
shifted after that, further tokens without an action are discarded as well.

Not every parse ends: precedence can make a table reduce for ever. `Parser.run` therefore takes the
number of steps that it may make, and has no outcome if they are not enough.
-/

namespace ShiftReduce

open ShiftReduce.Text

/-- What a parser has done, as its trace tells it. -/
inductive Move where
  | shift (state next terminal : Nat) (text : String)
  | reduce (state prod : Nat)
  | accept (state : Nat)
  /-- The terminal for wrong input was shifted. -/
  | shiftError (state next : Nat)
  /-- A token was discarded while recovering. -/
  | discard (text : String)
  /-- A token was discarded after recovering, before any token was shifted. -/
  | discardStuck (text : String)
deriving DecidableEq

/-- The event that tells about a move. -/
def Move.event (g : Grammar) : Move → Event
  | .shift state next terminal text =>
    ⟨.trace, "shift", [("state", .count state), ("next", .count next),
      ("terminal", .text (g.terminalName terminal)), ("text", .text text)]⟩
  | .reduce state prod =>
    ⟨.trace, "reduce", [("state", .count state), ("production", .text (g.prodText prod))]⟩
  | .accept state => ⟨.trace, "accept", [("state", .count state)]⟩
  | .shiftError state next =>
    ⟨.trace, "shift error token", [("state", .count state), ("next", .count next)]⟩
  | .discard text => ⟨.trace, "discard", [("text", .text text)]⟩
  | .discardStuck text => ⟨.trace, "discard after recovery", [("text", .text text)]⟩

/-- A parser in the middle of a parse. -/
structure Config (α : Type) where
  /-- The states with their values, the top of the stack first. -/
  stack : List (Nat × α)
  token : Token
  /-- The place in the input after the token. -/
  ahead : Cursor
  /-- The error that was recovered from, until a production with the error terminal takes it. -/
  recovered : Option ParseError
  /-- Whether a token has been shifted since the last recovery. -/
  shifted : Bool

/-- The result of a step: another configuration or the end of the parse. -/
inductive Step (α : Type) where
  | next (c : Config α)
  | done (result : Except ParseError α)

/-- The end of a parse and all moves up to it. -/
structure Outcome (α : Type) where
  moves : List Move
  result : Except ParseError α

namespace Parser

variable {α : Type}

/-- The state on top of a stack. -/
def top (p : Parser α) (stack : List (Nat × α)) : Nat :=
  (stack.head?.map Prod.fst).getD p.tables.start

/-- The syntax error in a state at a token. -/
def syntaxError (p : Parser α) (input : String) (state : Nat) (token : Token) : ParseError :=
  let expected := ((p.tables.expected state).filter fun t => p.grammar.error ≠ some t).map
    p.grammar.terminalName
  let span : Span := ⟨token.start, token.stop⟩
  let location := Location.ofOffset input token.start
  if token.terminal = p.tables.eof then .unexpectedEnd span location state expected
  else
    .unexpectedToken (p.grammar.terminalName token.terminal) token.text span location state expected

/-- The lexical error at a stray character. -/
def lexError (input : String) (e : LexError) : ParseError :=
  .lex e (Location.ofOffset input e.start)

/-- The next token and the place after it. The end of the input is never passed. -/
def nextToken (p : Parser α) (input : String) (c : Cursor) : Except ParseError (Token × Cursor) :=
  match p.lexer.scan c.pos c.rest with
  | .token t after => .ok (t, after)
  | .stray e _ => .error (lexError input e)
  | .ending pos => .ok (p.lexer.endToken pos, ⟨pos, []⟩)

/-- The value of a terminal with the given text. -/
def valueOf (p : Parser α) (terminal : Nat) (text : String) : Option α :=
  (p.values[terminal]?.bind id).map fun value => value text

/-- Shifts the token. -/
def shift (p : Parser α) (input : String) (c : Config α) (next : Nat) : Step α :=
  match p.valueOf c.token.terminal c.token.text with
  | none => .done (.error (p.syntaxError input (p.top c.stack) c.token))
  | some value =>
    match p.nextToken input c.ahead with
    | .error e => .done (.error e)
    | .ok (token, ahead) =>
      .next { c with
        stack := (next, value) :: c.stack, token := token, ahead := ahead, shifted := true }

/-- Whether the right-hand side of a production has the terminal for wrong input in it. -/
def usesError (p : Parser α) (prod : Nat) : Bool :=
  match p.grammar.error with
  | some t => Symbol.terminal t ∈ p.grammar.rhs prod
  | none => false

/-- The value of a production: the handler's if there is an error to hand over, or else the
rule's. -/
def reduceValue (p : Parser α) (input : String) (prod : Nat) (recovered : Option ParseError)
    (token : Token) (values : List α) : Except ParseError α :=
  match p.rules[prod]? with
  | none => .error (p.syntaxError input (p.tables.start) token)
  | some r =>
    match recovered, r.onError with
    | some e, some handler => .ok (handler e values)
    | _, _ =>
      (r.rule.run values).mapError fun message =>
        .refused message (p.grammar.prodText prod) ⟨token.start, token.stop⟩
          (Location.ofOffset input token.start)

/-- The number of values that a production takes off the stack. -/
def arity (p : Parser α) (prod : Nat) : Nat := (p.tables.prods[prod]?.map Prod.snd).getD 0

/-- The nonterminal that a production reduces to. -/
def target (p : Parser α) (prod : Nat) : Nat := (p.tables.prods[prod]?.map Prod.fst).getD 0

/-- Reduces by a production. A production with the terminal for wrong input takes the error that
was recovered from, whether it has a handler or not. -/
def reduce (p : Parser α) (input : String) (c : Config α) (prod : Nat) : Step α :=
  let values := ((c.stack.take (p.arity prod)).map Prod.snd).reverse
  let stack := c.stack.drop (p.arity prod)
  let taken := if p.usesError prod then c.recovered else none
  let left := if p.usesError prod then none else c.recovered
  match p.reduceValue input prod taken c.token values with
  | .error e => .done (.error e)
  | .ok value =>
    match p.tables.gotoAt (p.top stack) (p.target prod) with
    | some next => .next { c with stack := (next, value) :: stack, recovered := left }
    | none => .done (.error (p.syntaxError input (p.top stack) c.token))

/-- The longest part of the stack whose top can shift the terminal for wrong input, with the states
before and after that shift. -/
def recoveryPoint (p : Parser α) (terminal : Nat) :
    List (Nat × α) → Option (List (Nat × α) × Nat × Nat)
  | [] =>
    match p.tables.actionAt p.tables.start terminal with
    | .shift next => some ([], p.tables.start, next)
    | _ => none
  | entry :: stack =>
    match p.tables.actionAt entry.1 terminal with
    | .shift next => some (entry :: stack, entry.1, next)
    | _ => recoveryPoint p terminal stack

/-- Discards tokens until one has an action in the state. If none has one up to the end of the
input, the error stays as it was. -/
def discard (p : Parser α) (input : String) (state : Nat) (e : ParseError) (token : Token)
    (ahead : Cursor) : List Move × Except ParseError (Token × Cursor) :=
  if p.tables.actionAt state token.terminal ≠ .error then ([], .ok (token, ahead))
  else if token.terminal = p.tables.eof then ([], .error e)
  else
    match _h : p.lexer.scan ahead.pos ahead.rest with
    | .token next after =>
      let (moves, result) := p.discard input state e next after
      (.discard token.text :: moves, result)
    | .stray le _ => ([.discard token.text], .error (lexError input le))
    | .ending pos =>
      ([.discard token.text],
        if p.tables.actionAt state p.lexer.eof ≠ .error then
          .ok (p.lexer.endToken pos, ⟨pos, []⟩)
        else .error e)
termination_by ahead.rest.length
decreasing_by exact p.lexer.length_rest_lt_of_scan _ _ after (by rw [_h, Scan.after?])

/-- Recovers from an error. -/
def recover (p : Parser α) (input : String) (c : Config α) (e : ParseError) :
    List Move × Step α :=
  match p.grammar.error with
  | none => ([], .done (.error e))
  | some terminal =>
    match p.recoveryPoint terminal c.stack with
    | none => ([], .done (.error e))
    | some (stack, state, next) =>
      match p.valueOf terminal c.token.text with
      | none =>
        ([.shiftError state next], .done (.error (p.syntaxError input state c.token)))
      | some value =>
        let (moves, result) := p.discard input next e c.token c.ahead
        (.shiftError state next :: moves,
          match result with
          | .error e => .done (.error e)
          | .ok (token, ahead) =>
            .next
              { stack := (next, value) :: stack
                token := token
                ahead := ahead
                recovered := some e
                shifted := false })

/-- Deals with a token that has no action in the state. -/
def stumble (p : Parser α) (input : String) (c : Config α) : List Move × Step α :=
  let e := p.syntaxError input (p.top c.stack) c.token
  if c.shifted then p.recover input c e
  else if c.token.terminal = p.tables.eof then ([], .done (.error e))
  else
    ([.discardStuck c.token.text],
      match p.nextToken input c.ahead with
      | .error e => .done (.error e)
      | .ok (token, ahead) => .next { c with token := token, ahead := ahead })

/-- The end of a parse: the value on top of the stack. -/
def finish (p : Parser α) (input : String) (c : Config α) : Except ParseError α :=
  match c.stack with
  | (_, value) :: _ => .ok value
  | [] => .error (p.syntaxError input p.tables.start c.token)

/-- One step, with the moves that it consists of. -/
def step (p : Parser α) (input : String) (c : Config α) : List Move × Step α :=
  let state := p.top c.stack
  match p.tables.actionAt state c.token.terminal with
  | .shift next =>
    ([.shift state next c.token.terminal c.token.text], p.shift input c next)
  | .reduce prod =>
    ([.reduce (p.top (c.stack.drop (p.arity prod))) prod], p.reduce input c prod)
  | .accept => ([.accept state], .done (p.finish input c))
  | .error => p.stumble input c

/-- Goes on from a configuration for at most the given number of steps. -/
def run (p : Parser α) (input : String) : Nat → Config α → Option (Outcome α)
  | 0, _ => none
  | fuel + 1, c =>
    match p.step input c with
    | (moves, .done result) => some ⟨moves, result⟩
    | (moves, .next c) => (run p input fuel c).map fun o => { o with moves := moves ++ o.moves }

/-- Parses an input in at most the given number of steps. -/
def parseWithin (p : Parser α) (fuel : Nat) (input : String) : Option (Outcome α) :=
  match p.nextToken input ⟨0, input.toList⟩ with
  | .error e => some ⟨[], .error e⟩
  | .ok (token, ahead) => p.run input fuel ⟨[], token, ahead, none, true⟩

/-- The number of steps that `Parser.parse` allows. -/
def stepLimit : Nat := UInt64.size

/-- Parses an input. There is no outcome if the parse has not ended within `stepLimit` steps. -/
def parse (p : Parser α) (input : String) : Option (Outcome α) :=
  p.parseWithin stepLimit input

end Parser

end ShiftReduce
