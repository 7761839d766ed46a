import ShiftReduce.Parser.Run
import ShiftReduce.Proofs.Lalr.Machine

/-!
# Values of trees

`Parser.evaluate` makes the value of a tree from the bottom up and from left to right by the rules of
the productions, and stops where a rule refuses its values for the first time. Where the trees on a
stack have no values because of such a refusal, it stays the first one whatever is shifted and reduced
afterwards (`Parser.refused_of_reaches`).
-/

namespace ShiftReduce

open StateTransition (Reaches)

/-- Why a tree has no value. -/
inductive Refusal where
  /-- It is not known how to make a value of a terminal or a production. -/
  | missing
  /-- The rule of the production refused its values with a message. -/
  | refused (prod : Nat) (message : String)

namespace Parser

variable {α : Type} {p : Parser α} {e : Refusal}

/-- The value that the rule of a production makes. -/
def applyRule (p : Parser α) (prod : Nat) (values : List α) : Except Refusal α :=
  match p.rules[prod]? with
  | none => .error .missing
  | some r => (r.rule.run values).mapError (.refused prod)

mutual

/-- The value of a tree, or the first refusal on the way to it. -/
def evaluate (p : Parser α) : Tree → Except Refusal α
  | .leaf word =>
    match p.valueOf word.1 word.2 with
    | none => .error .missing
    | some v => .ok v
  | .node prod children => (p.evaluateAll children).bind (p.applyRule prod)

/-- The values of some trees, or the first refusal on the way to them. -/
def evaluateAll (p : Parser α) : List Tree → Except Refusal (List α)
  | [] => .ok []
  | tree :: trees => (p.evaluate tree).bind fun v => (p.evaluateAll trees).map (v :: ·)

end

theorem evaluateAll_of_forall₂ {trees : List Tree} {values : List α}
    (h : List.Forall₂ (fun tree v => p.evaluate tree = .ok v) trees values) :
    p.evaluateAll trees = .ok values := by
  induction h with
  | nil => rfl
  | cons hv _ ih =>
    rw [evaluateAll, hv, ih]
    rfl

theorem evaluateAll_singleton (tree : Tree) :
    p.evaluateAll [tree] = (p.evaluate tree).map fun v => [v] := by
  rw [evaluateAll, evaluateAll]
  cases p.evaluate tree with
  | error e => rfl
  | ok v => rfl

theorem evaluate_of_singleton {tree : Tree} (h : p.evaluateAll [tree] = .error e) :
    p.evaluate tree = .error e := by
  rw [evaluateAll_singleton] at h
  cases hv : p.evaluate tree with
  | error e' =>
    rw [hv] at h
    exact congrArg Except.error (Except.error.inj h)
  | ok v =>
    rw [hv] at h
    exact absurd h (by simp [Except.map])

theorem evaluateAll_append (trees trees' : List Tree) : p.evaluateAll (trees ++ trees') =
    (p.evaluateAll trees).bind fun values => (p.evaluateAll trees').map (values ++ ·) := by
  induction trees with
  | nil =>
    rw [List.nil_append, evaluateAll]
    cases p.evaluateAll trees' with
    | error e => rfl
    | ok values => rfl
  | cons tree trees ih =>
    rw [List.cons_append, evaluateAll, evaluateAll, ih]
    cases p.evaluate tree with
    | error e => rfl
    | ok v =>
      cases p.evaluateAll trees with
      | error e => rfl
      | ok values =>
        cases p.evaluateAll trees' with
        | error e => rfl
        | ok values' => rfl

/-- Trees that are refused are still refused when some of the last ones become the children of a
node. -/
theorem evaluateAll_node_of_error {trees children : List Tree}
    (h : p.evaluateAll (trees ++ children) = .error e) (prod : Nat) :
    p.evaluateAll (trees ++ [.node prod children]) = .error e := by
  rw [evaluateAll_append] at h ⊢
  cases hvalues : p.evaluateAll trees with
  | error e' =>
    rw [hvalues] at h
    exact h
  | ok values =>
    rw [hvalues] at h
    rw [evaluateAll_singleton, evaluate]
    cases hchildren : p.evaluateAll children with
    | error e' =>
      rw [hchildren] at h
      exact h
    | ok values' =>
      rw [hchildren] at h
      exact absurd h (by simp [Except.map, Except.bind])

/-- A refusal stays the first one in every turn. -/
theorem refused_of_turn {g : Grammar} {t : Tables} {s s' : Stage}
    (h : p.evaluateAll s.trees = .error e) (hturn : Tables.turn g t s = some s') :
    p.evaluateAll s'.trees = .error e := by
  rcases Tables.trees_of_turn hturn with ⟨word, htrees, -⟩ |
    ⟨before, children, prod, hbefore, hafter, -⟩
  · rw [htrees, evaluateAll_append, h]
    rfl
  · rw [hbefore] at h
    rw [hafter]
    exact evaluateAll_node_of_error h prod

theorem refused_of_reaches {g : Grammar} {t : Tables} {s s' : Stage}
    (h : p.evaluateAll s.trees = .error e) (hreaches : Reaches (Tables.turn g t) s s') :
    p.evaluateAll s'.trees = .error e := by
  induction hreaches with
  | refl => exact h
  | tail _ hturn ih => exact refused_of_turn ih hturn

end Parser

end ShiftReduce
