import Mathlib.Logic.Relation
import ShiftReduce.Grammar.Basic

/-!
# Derivations

A sentential form is a list of symbols. `Grammar.Derives` rewrites one sentential form into another,
one nonterminal at a time, by any production of the grammar.

What lookahead sets are made of are two properties of sentential forms: that they derive the empty
text, and that they derive a form that begins with a given terminal. Both are also given by
induction over the symbols, as `Grammar.Vanishes` and `Grammar.Begins`, which is the form in which
they are proved and used; `vanishes_iff_derives` and `begins_iff_derives` are the bridge.
-/

namespace ShiftReduce

namespace Grammar

variable {g : Grammar}

/-- One nonterminal of a sentential form is replaced by the right-hand side of a production. -/
inductive Rewrites (g : Grammar) : List Symbol → List Symbol → Prop
  | intro (before after : List Symbol) {p : Nat} (hp : p < g.prods.size) :
    Rewrites g (before ++ .nonterminal (g.lhs p) :: after) (before ++ (g.rhs p ++ after))

/-- A sentential form is rewritten any number of times. -/
def Derives (g : Grammar) : List Symbol → List Symbol → Prop :=
  Relation.ReflTransGen g.Rewrites

/-- The symbols derive the empty text. -/
inductive Vanishes (g : Grammar) : List Symbol → Prop
  | nil : Vanishes g []
  | cons {p : Nat} {rest : List Symbol} (hp : p < g.prods.size) (hrhs : Vanishes g (g.rhs p))
    (hrest : Vanishes g rest) : Vanishes g (.nonterminal (g.lhs p) :: rest)

/-- The symbols derive a sentential form that begins with the terminal `t`. -/
inductive Begins (g : Grammar) (t : Nat) : List Symbol → Prop
  | here (rest : List Symbol) : Begins g t (.terminal t :: rest)
  | inside {p : Nat} (rest : List Symbol) (hp : p < g.prods.size)
    (hrhs : Begins g t (g.rhs p)) : Begins g t (.nonterminal (g.lhs p) :: rest)
  | behind {n : Nat} {rest : List Symbol} (hn : Vanishes g [.nonterminal n])
    (hrest : Begins g t rest) : Begins g t (.nonterminal n :: rest)

/-! ### Symbols that derive the empty text -/

theorem vanishes_cons {x : Symbol} {rest : List Symbol} :
    g.Vanishes (x :: rest) ↔ g.Vanishes [x] ∧ g.Vanishes rest := by
  constructor
  · intro h
    cases h with
    | cons hp hrhs hrest => exact ⟨.cons hp hrhs .nil, hrest⟩
  · rintro ⟨hx, hrest⟩
    cases hx with
    | cons hp hrhs _ => exact .cons hp hrhs hrest

theorem vanishes_append {xs ys : List Symbol} :
    g.Vanishes (xs ++ ys) ↔ g.Vanishes xs ∧ g.Vanishes ys := by
  induction xs with
  | nil => simp [Vanishes.nil]
  | cons x xs ih =>
    rw [List.cons_append, vanishes_cons, ih, ← and_assoc, ← vanishes_cons]

theorem not_vanishes_terminal {t : Nat} {rest : List Symbol} :
    ¬ g.Vanishes (.terminal t :: rest) := by
  intro h
  cases h

/-- No terminal is among symbols that vanish. -/
theorem not_mem_of_vanishes {xs : List Symbol} (h : g.Vanishes xs) {t : Nat} :
    .terminal t ∉ xs := by
  intro hmem
  obtain ⟨before, after, rfl⟩ := List.append_of_mem hmem
  exact not_vanishes_terminal (vanishes_append.1 h).2

theorem vanishes_nonterminal_iff {n : Nat} :
    g.Vanishes [.nonterminal n] ↔ ∃ p, p < g.prods.size ∧ g.lhs p = n ∧ g.Vanishes (g.rhs p) := by
  constructor
  · intro h
    cases h with
    | cons hp hrhs _ => exact ⟨_, hp, rfl, hrhs⟩
  · rintro ⟨p, hp, rfl, hrhs⟩
    exact .cons hp hrhs .nil

/-! ### Symbols that derive a form with a given first terminal -/

theorem begins_append {t : Nat} {xs ys : List Symbol} :
    g.Begins t (xs ++ ys) ↔ g.Begins t xs ∨ g.Vanishes xs ∧ g.Begins t ys := by
  induction xs with
  | nil =>
    constructor
    · intro h
      exact Or.inr ⟨.nil, h⟩
    · rintro (h | ⟨-, h⟩)
      · cases h
      · exact h
  | cons x xs ih =>
    constructor
    · intro h
      cases h with
      | here => exact Or.inl (.here _)
      | inside _ hp hrhs => exact Or.inl (.inside _ hp hrhs)
      | behind hn hrest =>
        rcases ih.1 hrest with h | ⟨hxs, h⟩
        · exact Or.inl (.behind hn h)
        · exact Or.inr ⟨vanishes_cons.2 ⟨hn, hxs⟩, h⟩
    · rintro (h | ⟨hxs, h⟩)
      · cases h with
        | here => exact .here _
        | inside _ hp hrhs => exact .inside _ hp hrhs
        | behind hn hrest => exact .behind hn (ih.2 (Or.inl hrest))
      · cases hxs with
        | cons hp hrhs hxs => exact .behind (.cons hp hrhs .nil) (ih.2 (Or.inr ⟨hxs, h⟩))

theorem begins_terminal_iff {t u : Nat} {rest : List Symbol} :
    g.Begins t (.terminal u :: rest) ↔ t = u := by
  constructor
  · intro h
    cases h
    rfl
  · rintro rfl
    exact .here rest

/-- What comes after the symbols counts only if they can vanish. -/
theorem begins_append_terminal {t u : Nat} {xs : List Symbol} :
    g.Begins t (xs ++ [.terminal u]) ↔ g.Begins t xs ∨ g.Vanishes xs ∧ t = u := by
  rw [begins_append, begins_terminal_iff]

/-! ### The bridge to derivations -/

theorem Rewrites.append_right {xs ys : List Symbol} (h : g.Rewrites xs ys) (zs : List Symbol) :
    g.Rewrites (xs ++ zs) (ys ++ zs) := by
  cases h with
  | intro before after hp =>
    have := Rewrites.intro (g := g) before (after ++ zs) hp
    simpa using this

theorem Derives.append_right {xs ys : List Symbol} (h : g.Derives xs ys) (zs : List Symbol) :
    g.Derives (xs ++ zs) (ys ++ zs) := by
  induction h with
  | refl => exact .refl
  | tail _ hstep ih => exact ih.tail (hstep.append_right zs)

theorem Derives.append_left {xs ys : List Symbol} (h : g.Derives xs ys) (zs : List Symbol) :
    g.Derives (zs ++ xs) (zs ++ ys) := by
  induction h with
  | refl => exact .refl
  | tail _ hstep ih =>
    refine ih.tail ?_
    cases hstep with
    | intro before after hp =>
      rw [← List.append_assoc, ← List.append_assoc]
      exact .intro (zs ++ before) after hp

theorem derives_rhs {p : Nat} (hp : p < g.prods.size) (rest : List Symbol) :
    g.Derives (.nonterminal (g.lhs p) :: rest) (g.rhs p ++ rest) :=
  .single (.intro [] rest hp)

theorem vanishes_of_rewrites {xs ys : List Symbol} (h : g.Rewrites xs ys) (hys : g.Vanishes ys) :
    g.Vanishes xs := by
  cases h with
  | intro before after hp =>
    rw [vanishes_append, vanishes_append] at hys
    exact vanishes_append.2 ⟨hys.1, .cons hp hys.2.1 hys.2.2⟩

theorem begins_of_rewrites {t : Nat} {xs ys : List Symbol} (h : g.Rewrites xs ys)
    (hys : g.Begins t ys) : g.Begins t xs := by
  cases h with
  | intro before after hp =>
    rw [begins_append] at hys ⊢
    rcases hys with h | ⟨hbefore, h⟩
    · exact Or.inl h
    · refine Or.inr ⟨hbefore, ?_⟩
      rcases begins_append.1 h with h | ⟨hrhs, h⟩
      · exact .inside _ hp h
      · exact .behind (.cons hp hrhs .nil) h

/-- Symbols vanish exactly if they derive the empty text. -/
theorem vanishes_iff_derives {xs : List Symbol} : g.Vanishes xs ↔ g.Derives xs [] := by
  constructor
  · intro h
    induction h with
    | nil => exact .refl
    | cons hp _ _ ihrhs ihrest =>
      exact (derives_rhs hp _).trans ((ihrhs.append_right _).trans ihrest)
  · intro h
    induction h using Relation.ReflTransGen.head_induction_on with
    | refl => exact .nil
    | head hstep _ ih => exact vanishes_of_rewrites hstep ih

/-- Symbols begin with a terminal exactly if they derive a sentential form that does. -/
theorem begins_iff_derives {t : Nat} {xs : List Symbol} :
    g.Begins t xs ↔ ∃ ys, g.Derives xs (.terminal t :: ys) := by
  constructor
  · intro h
    induction h with
    | here rest => exact ⟨rest, .refl⟩
    | inside rest hp _ ih =>
      obtain ⟨ys, hys⟩ := ih
      exact ⟨ys ++ rest, (derives_rhs hp rest).trans (hys.append_right rest)⟩
    | @behind n rest hn _ ih =>
      obtain ⟨ys, hys⟩ := ih
      exact ⟨ys, ((vanishes_iff_derives.1 hn).append_right rest).trans hys⟩
  · rintro ⟨ys, h⟩
    induction h using Relation.ReflTransGen.head_induction_on with
    | refl => exact .here ys
    | head hstep _ ih => exact begins_of_rewrites hstep ih

end Grammar

end ShiftReduce
