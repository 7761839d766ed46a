import ShiftReduce.Grammar.Basic

/-!
# Actions and precedence

The actions of a parser, and how precedence chooses between two of them. Between shifting a terminal
and reducing by a production the one of the higher level wins, and on the same level the way in
which the group associates decides. Between two productions the one of the higher level wins. Where
a group is missing, or two productions are on the same level, precedence does not choose.
-/

namespace ShiftReduce

/-- What a parser does in a state on a terminal. -/
inductive Action where
  | shift (next : Nat)
  | reduce (prod : Nat)
  | accept
  | error
deriving DecidableEq, Inhabited

namespace Action

/-- An action as text. -/
def text : Action → String
  | shift next => "shift " ++ toString next
  | reduce prod => "reduce " ++ toString prod
  | accept => "accept"
  | error => "error"

/-- An action in words. -/
def describe (g : Grammar) : Action → String
  | shift next => "shift to state " ++ toString next
  | reduce prod => "reduce by " ++ g.prodText prod
  | accept => "accept"
  | error => "error"

end Action

/-- How precedence chooses between shifting and reducing. -/
inductive Preference where
  | shift
  | reduce
  /-- Operators that do not associate: neither of the two is allowed. -/
  | neither
deriving DecidableEq

/-- The choice between reducing by `prod` and shifting `terminal`, if both have a group. -/
def preference (g : Grammar) (prod terminal : Nat) : Option Preference :=
  match g.prodPrec prod, g.terminalPrec terminal with
  | some p, some t =>
    if p.level = t.level then
      match t.assoc with
      | .left => some .reduce
      | .right => some .shift
      | .none => some .neither
    else if p.level < t.level then some .shift
    else some .reduce
  | _, _ => none

/-- The choice between reducing by two productions, if both have a group and not the same level. -/
def betterProd (g : Grammar) (p q : Nat) : Option Nat :=
  match g.prodPrec p, g.prodPrec q with
  | some a, some b =>
    if b.level < a.level then some p
    else if a.level < b.level then some q
    else none
  | _, _ => none

end ShiftReduce
