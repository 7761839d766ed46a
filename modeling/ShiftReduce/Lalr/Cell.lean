import ShiftReduce.Lalr.Action

/-!
# Cells of the action table

A cell collects what the items of a state offer to do on one terminal, one offer after the other.
Two offers that meet in a cell are settled by precedence, if it chooses between them; otherwise they
clash. A cell that operators without associativity have emptied remembers the shift and the
reduction that cancelled each other, so that a later reduction is still held against them.
-/

namespace ShiftReduce

/-- What an item offers to do on a terminal. -/
inductive Offer where
  | shift (next : Nat)
  | reduce (prod : Nat)
  | accept
deriving DecidableEq

/-- The offer as an action. -/
def Offer.action : Offer → Action
  | .shift next => .shift next
  | .reduce prod => .reduce prod
  | .accept => .accept

/-- What has been settled for one terminal so far. -/
inductive Cell where
  | vacant
  | shift (next : Nat)
  | reduce (prod : Nat)
  | accept
  /-- The shift to `next` and the reduction by `prod` have cancelled each other. -/
  | emptied (next prod : Nat)
deriving DecidableEq, Inhabited

/-- The action of a cell. -/
def Cell.action : Cell → Action
  | .vacant => .error
  | .shift next => .shift next
  | .reduce prod => .reduce prod
  | .accept => .accept
  | .emptied _ _ => .error

/-- The two kinds of conflicts. -/
inductive ConflictKind where
  | shiftReduce
  | reduceReduce
deriving DecidableEq

/-- The name of a kind of conflict. -/
def ConflictKind.name : ConflictKind → String
  | .shiftReduce => "shift-reduce"
  | .reduceReduce => "reduce-reduce"

/-- Two offers that precedence does not choose between. -/
structure Clash where
  kind : ConflictKind
  previous : Action
  new : Action
deriving DecidableEq

/-- Two offers that precedence has chosen between, and its choice. -/
structure Verdict where
  previous : Action
  new : Action
  chosen : Action
deriving DecidableEq

namespace Cell

/-- The cell after a shift to `next` and a reduction by `prod` have been weighed against each
other. -/
def weigh (next prod : Nat) : Preference → Cell
  | .shift => .shift next
  | .reduce => .reduce prod
  | .neither => .emptied next prod

/-- A settled cell together with the verdict about the two offers that have met in it. -/
def judged (previous new : Action) (cell : Cell) : Cell × Option Verdict :=
  (cell, some ⟨previous, new, cell.action⟩)

/-- The cell after the offer to shift the terminal `t`. -/
def offerShift (g : Grammar) (t next : Nat) (cell : Cell) : Except Clash (Cell × Option Verdict) :=
  match cell with
  | .vacant => .ok (.shift next, none)
  | .shift old =>
    if old = next then .ok (cell, none) else .error ⟨.shiftReduce, .shift old, .shift next⟩
  | .reduce prod =>
    match preference g prod t with
    | some choice => .ok (judged (.reduce prod) (.shift next) (weigh next prod choice))
    | none => .error ⟨.shiftReduce, .reduce prod, .shift next⟩
  | .accept => .error ⟨.shiftReduce, .accept, .shift next⟩
  | .emptied _ _ => .ok (cell, none)

/-- The cell after the offer to reduce by `prod` on the terminal `t`. -/
def offerReduce (g : Grammar) (t prod : Nat) (cell : Cell) : Except Clash (Cell × Option Verdict) :=
  match cell with
  | .vacant => .ok (.reduce prod, none)
  | .shift next =>
    match preference g prod t with
    | some choice => .ok (judged (.shift next) (.reduce prod) (weigh next prod choice))
    | none => .error ⟨.shiftReduce, .shift next, .reduce prod⟩
  | .reduce old =>
    match betterProd g old prod with
    | some winner => .ok (judged (.reduce old) (.reduce prod) (.reduce winner))
    | none => .error ⟨.reduceReduce, .reduce old, .reduce prod⟩
  | .accept => .error ⟨.reduceReduce, .accept, .reduce prod⟩
  | .emptied next old =>
    if old = prod then .ok (cell, none)
    else
      match betterProd g old prod with
      | none => .error ⟨.reduceReduce, .reduce old, .reduce prod⟩
      | some winner =>
        if winner = old then .ok (judged (.reduce old) (.reduce prod) cell)
        else
          match preference g prod t with
          | some choice => .ok (judged (.reduce old) (.reduce prod) (weigh next prod choice))
          | none => .error ⟨.shiftReduce, .shift next, .reduce prod⟩

/-- The cell after the offer to accept. -/
def offerAccept (cell : Cell) : Except Clash (Cell × Option Verdict) :=
  match cell with
  | .vacant => .ok (.accept, none)
  | cell => .error ⟨.reduceReduce, cell.action, .accept⟩

/-- The cell of the terminal `t` after an offer. -/
def offer (g : Grammar) (t : Nat) (cell : Cell) : Offer → Except Clash (Cell × Option Verdict)
  | .shift next => cell.offerShift g t next
  | .reduce prod => cell.offerReduce g t prod
  | .accept => cell.offerAccept

end Cell

end ShiftReduce
