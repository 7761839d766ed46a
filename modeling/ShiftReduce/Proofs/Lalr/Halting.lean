import Mathlib.Data.Fintype.Card
import ShiftReduce.Proofs.Lalr.Actions

/-!
# Reductions come to an end

Between two shifts a parser reduces, always before the same terminal. What has been read is then
rewritten: the right-hand side of a production at its end becomes the nonterminal
(`Tables.Reduces`). This comes to an end, whatever has been read, if no symbol can go on for ever
being replaced by a nonterminal that derives it alone (`Tables.Climbs`), and if a run comes to an end
that never takes off what was there before (`Tables.HaltsBelow`). `Made.halts` puts the two together.

If no conflict had to be settled, both hold (`ConflictFree.halts`). Where the terminal is one that may
really come, this follows from what the parser has to do until it shifts it: `halts_of_expects`.
Merged states also reduce before other terminals. But what they do then they also do after symbols for
which the terminal is right, until they reach down to what was there before (`halts_of_twin`). And a
symbol that was replaced for ever would be so in a run with the right terminal as well
(`not_transGen_climbs`).
-/

namespace ShiftReduce

open Collection (walk)
open Relation (ReflTransGen TransGen)

namespace Tables

variable {g : Grammar} {t : Tables} {a : Nat} {γ γ' γ'' : List Symbol} {c : Core}

/-- The production that has been read last is reduced before the terminal `a`. -/
def Reduces (g : Grammar) (t : Tables) (a : Nat) (γ γ' : List Symbol) : Prop :=
  ∃ δ p i, γ = δ ++ g.rhs p ∧ γ' = δ ++ [.nonterminal (g.lhs p)] ∧
    walk (statesOf g) 0 γ = some i ∧ t.actionAt i a = .reduce p

/-- The reductions before the terminal `a` come to an end. -/
def Halts (g : Grammar) (t : Tables) (a : Nat) (γ : List Symbol) : Prop :=
  Acc (fun γ₂ γ₁ => Reduces g t a γ₁ γ₂) γ

theorem Reduces.unique (h : Reduces g t a γ γ') (h' : Reduces g t a γ γ'') : γ' = γ'' := by
  obtain ⟨δ, p, i, hγ, rfl, hwalk, haction⟩ := h
  obtain ⟨δ', p', i', hγ', rfl, hwalk', haction'⟩ := h'
  obtain rfl : i = i' := Option.some.inj (hwalk.symm.trans hwalk')
  obtain rfl : p = p' := Action.reduce.inj (haction.symm.trans haction')
  rw [List.append_cancel_right (hγ.symm.trans hγ')]

theorem Halts.of_reduces (h : Reduces g t a γ γ') (hγ' : Halts g t a γ') : Halts g t a γ := by
  refine Acc.intro _ fun γ'' h' => ?_
  rw [← h.unique h']
  exact hγ'

theorem Halts.of_reaches (h : ReflTransGen (Reduces g t a) γ γ') (hγ' : Halts g t a γ') :
    Halts g t a γ := by
  induction h using ReflTransGen.head_induction_on with
  | refl => exact hγ'
  | head hstep _ ih => exact .of_reduces hstep ih

/-- Reductions that come to an end do not return. -/
theorem Halts.not_transGen (h : Halts g t a γ) : ¬ TransGen (Reduces g t a) γ γ := by
  induction h with
  | intro γ _ ih =>
    intro hcycle
    obtain ⟨γ', hstep, hback⟩ := TransGen.head'_iff.1 hcycle
    exact ih γ' hstep (TransGen.tail'_iff.2 ⟨γ, hback, hstep⟩)

/-! ### Reductions that reach below -/

/-- The symbol `y` is the nonterminal of a production that begins with `x`, whose other symbols
vanish, and of which the terminal `a` is a lookahead somewhere. -/
def Climbs (g : Grammar) (a : Nat) (x y : Symbol) : Prop :=
  ∃ p ρ δ, p < g.prods.size ∧ y = .nonterminal (g.lhs p) ∧ g.rhs p = x :: ρ ∧
    g.augment.Vanishes ρ ∧ Canonical.Sees g.augment δ ⟨p, 0⟩ a

/-- There are only finitely many nonterminals, so replacing a symbol in this way comes to an end,
unless a symbol becomes itself. -/
theorem acc_climbs (hg : g.WellFormed) (hacyclic : ∀ x, ¬ TransGen (Climbs g a) x x) (x : Symbol) :
    Acc (fun y x => Climbs g a x y) x := by
  let r (m n : Fin g.nts.size) : Prop := TransGen (Climbs g a) (.nonterminal n) (.nonterminal m)
  have : IsTrans (Fin g.nts.size) r := ⟨fun _ _ _ hmn hnk => hnk.trans hmn⟩
  have : Std.Irrefl r := ⟨fun _ => hacyclic _⟩
  have hwf : WellFounded r := Finite.wellFounded_of_trans_of_irrefl r
  have hnonterminal : ∀ n : Fin g.nts.size,
      Acc (fun y x => Climbs g a x y) (.nonterminal n) := by
    intro n
    induction n using hwf.induction with
    | _ n ih =>
      refine Acc.intro _ ?_
      intro y hclimbs
      obtain ⟨p, ρ, δ, hp, rfl, -⟩ := id hclimbs
      exact ih ⟨g.lhs p, hg.lhs_lt p hp⟩ (.single hclimbs)
  refine Acc.intro _ ?_
  rintro y ⟨p, ρ, δ, hp, rfl, -⟩
  exact hnonterminal ⟨g.lhs p, hg.lhs_lt p hp⟩

/-- Every reduction that takes more than what was read after `γ` comes to an end. -/
def HaltsBelow (g : Grammar) (t : Tables) (a : Nat) (γ : List Symbol) : Prop :=
  ∀ δ p i η, g.augment.Vanishes η → γ ++ η = δ ++ g.rhs p → δ.length < γ.length →
    walk (statesOf g) 0 (γ ++ η) = some i → t.actionAt i a = .reduce p →
    Halts g t a (δ ++ [.nonterminal (g.lhs p)])

/-- What holds for the last symbol of what has been read: if the reductions that reach below it come
to an end, and otherwise it is only replaced by nonterminals that derive it alone, then all do. The
property `V` may be used to look at some symbols only. -/
theorem Made.halts_append (h : Made g t) (hg : g.WellFormed) {V : Symbol → Prop} {δ₀ : List Symbol}
    (hclimbs : ∀ {x y}, V x → Climbs g a x y → V y)
    (hbelow : ∀ x, V x → ∀ δ p i η, g.augment.Vanishes η → δ₀ ++ [x] ++ η = δ ++ g.rhs p →
      δ.length < δ₀.length → walk (statesOf g) 0 (δ₀ ++ [x] ++ η) = some i →
      t.actionAt i a = .reduce p → Halts g t a (δ ++ [.nonterminal (g.lhs p)]))
    (hhalts : ∀ {x i}, V x → walk (statesOf g) 0 (δ₀ ++ [x]) = some i →
      HaltsBelow g t a (δ₀ ++ [x]) → Halts g t a (δ₀ ++ [x]))
    {x : Symbol} (hacc : Acc (fun y x => Climbs g a x y) x) (hx : V x) {i : Nat}
    (hwalk : walk (statesOf g) 0 (δ₀ ++ [x]) = some i) : Halts g t a (δ₀ ++ [x]) := by
  induction hacc generalizing i with
  | intro x _ ih =>
    refine hhalts hx hwalk ?_
    intro δ p i η hη heq hlt hi haction
    rw [List.length_append, List.length_singleton] at hlt
    rcases Nat.lt_succ_iff_lt_or_eq.1 hlt with hlt | hlength
    · exact hbelow x hx δ p i η hη heq hlt hi haction
    · -- only the last symbol is taken off, and what was read after it vanishes
      rw [heq] at hi
      obtain ⟨hp, hne⟩ := h.nonempty_of_reduce hg hi haction
      obtain ⟨j, hj⟩ :=
        (finished_statesOf hg).exists_walk (Grammar.isAugmented_augment hg) hne
      rw [List.append_assoc] at heq
      obtain ⟨rfl, hrhs⟩ := List.append_inj heq hlength.symm
      obtain ⟨-, -, twin, -, hsees⟩ := h.reduce_spec hg hi haction
      obtain ⟨δ, hsees⟩ := hsees.exists_taken_up
      have hclimb : Climbs g a x (.nonterminal (g.lhs p)) :=
        ⟨p, η, δ, hp, rfl, hrhs.symm, hη, hsees⟩
      exact ih _ hclimb (hclimbs hx hclimb) hj

/-- The reductions come to an end if no symbol alone becomes itself, and if those do that only leave
what has been read in place. -/
theorem Made.halts (h : Made g t) (hg : g.WellFormed)
    (hacyclic : ∀ x, ¬ TransGen (Climbs g a) x x)
    (hbelow : ∀ {γ i}, walk (statesOf g) 0 γ = some i → HaltsBelow g t a γ → Halts g t a γ)
    {i : Nat} (hwalk : walk (statesOf g) 0 γ = some i) : Halts g t a γ := by
  -- the induction is on how much has been read, and then on the last symbol
  induction hn : γ.length using Nat.strong_induction_on generalizing γ i with
  | _ n ih =>
    subst hn
    rcases List.eq_nil_or_concat γ with rfl | ⟨δ₀, x, rfl⟩
    · exact hbelow hwalk fun δ p i η _ _ hlt => absurd hlt (Nat.not_lt_zero _)
    · rw [List.concat_eq_append] at hwalk ih ⊢
      refine h.halts_append hg (V := fun _ => True) (fun _ _ => trivial) ?_ (fun _ => hbelow)
        (acc_climbs hg hacyclic x) trivial hwalk
      intro x _ δ p i η _ heq hlt hi haction
      rw [heq] at hi
      obtain ⟨-, hne⟩ := h.nonempty_of_reduce hg hi haction
      obtain ⟨j, hj⟩ :=
        (finished_statesOf hg).exists_walk (Grammar.isAugmented_augment hg) hne
      refine ih _ ?_ hj rfl
      simp only [List.length_append, List.length_singleton]
      omega

namespace ConflictFree

/-! ### Terminals that may come -/

/-- A production of which the terminal is a lookahead is reduced. -/
theorem reduces_of_sees (h : ConflictFree g t) {δ : List Symbol} {p : Nat} (hp : p < g.prods.size)
    (hsees : Canonical.Sees g.augment (δ ++ g.rhs p) ⟨p, (g.rhs p).length⟩ a) :
    Reduces g t a (δ ++ g.rhs p) (δ ++ [.nonterminal (g.lhs p)]) := by
  obtain ⟨i, hi⟩ := (finished_statesOf h.wellFormed).exists_walk h.isAugmented
    (Canonical.nonempty_of_closure hsees.closure)
  exact ⟨δ, p, i, rfl, rfl, hi, h.reduce_of_sees hi hp hsees⟩

/-- The accepting production does not vanish. -/
theorem lt_of_vanishes_rhs {p : Nat} (hp : p < g.augment.prods.size)
    (hrhs : g.augment.Vanishes (g.augment.rhs p)) : p < g.prods.size := by
  rw [Grammar.size_prods_augment] at hp
  refine Nat.lt_of_le_of_ne (Nat.le_of_lt_succ hp) ?_
  rintro rfl
  rw [Grammar.rhs_augment_size, Grammar.vanishes_cons] at hrhs
  exact Grammar.not_vanishes_terminal hrhs.2

/-- What is behind the first symbols of the accepting production does not vanish. -/
theorem lt_of_vanishes_rest {x : Symbol} {ρ : List Symbol} (hrest : c.rest g.augment = x :: ρ)
    (hx : x ≠ .terminal g.eof) (hρ : g.augment.Vanishes ρ) : c.prod < g.prods.size := by
  have hmem := Canonical.mem_rhs_of_next? (Canonical.next?_of_rest hrest)
  rcases Grammar.mem_rhs_augment hmem with ⟨-, hlt⟩ | ⟨hprod, hcases⟩
  · exact hlt
  · rw [Core.rest, hprod, Grammar.rhs_augment_size] at hrest
    rcases hdot : c.dot with _ | _ | k
    · rw [hdot, List.drop_zero] at hrest
      rw [← (List.cons.inj hrest).2] at hρ
      exact absurd hρ Grammar.not_vanishes_terminal
    · rw [hdot] at hrest
      exact absurd (List.cons.inj hrest).1.symm hx
    · rw [hdot] at hrest
      exact absurd hrest (by simp)

/-- Symbols that vanish are read by reductions alone, if the terminal may come behind them. -/
theorem reaches_of_vanishes (h : ConflictFree g t) {ν ρ : List Symbol}
    (hν : g.augment.Vanishes ν)
    (hc : Canonical.Closure g.augment (Canonical.kernelAfter g.augment γ) c)
    (hrest : c.rest g.augment = ν ++ ρ) (hexpects : Canonical.Expects g.augment γ c ρ a) :
    ReflTransGen (Reduces g t a) γ (γ ++ ν) := by
  have hG := h.isAugmented
  induction hν generalizing γ c ρ with
  | nil => rw [List.append_nil]
  | @cons p ν hp hrhs hν ihrhs ihν =>
    have hlt := lt_of_vanishes_rhs hp hrhs
    have hlisted := Grammar.listsAll_augment h.wellFormed h.listsAll p hp
    have hnext := Canonical.next?_of_rest hrest
    -- the production of the first symbol is taken up, read and reduced
    have hsees := (hexpects.append_left hν).sees_expand hc hrest hlisted
    have hread := ihrhs (ρ := []) (Canonical.Closure.expand hc hnext hlisted)
      (List.append_nil _).symm hsees.expects
    have hend := hsees.read_rest hG (Grammar.ne_acceptProd hlt)
    rw [Core.rest, List.drop_zero, Grammar.rhs_augment hlt] at hend
    rw [Grammar.rhs_augment hlt] at hread
    have hreduced := hread.tail (h.reduces_of_sees hlt hend)
    -- then the other symbols are read
    rw [Grammar.lhs_augment hlt] at hnext hrest ⊢
    have hbehind := ihν (Canonical.closure_goto hG hc hnext (by simp))
      (Canonical.rest_succ hrest) (hexpects.goto hG hnext (by simp))
    rw [List.append_cons]
    exact hreduced.trans hbehind

/-- If only symbols that vanish are behind the next one, an item is read to its end and reduced. -/
theorem reaches_of_sees (h : ConflictFree g t) {x : Symbol} {ρ δ : List Symbol}
    (hsees : Canonical.Sees g.augment γ c a) (hrest : c.rest g.augment = x :: ρ)
    (hx : x ≠ .terminal g.eof) (hρ : g.augment.Vanishes ρ)
    (hγ : γ = δ ++ (g.augment.rhs c.prod).take c.dot) :
    TransGen (Reduces g t a) (γ ++ [x]) (δ ++ [.nonterminal (g.augment.lhs c.prod)]) := by
  have hG := h.isAugmented
  have hnext := Canonical.next?_of_rest hrest
  have hlt := lt_of_vanishes_rest hrest hx hρ
  have hread := h.reaches_of_vanishes (a := a) hρ
    (Canonical.closure_goto hG hsees.closure hnext hx)
    ((Canonical.rest_succ hrest).trans (List.append_nil ρ).symm)
    (hsees.goto hnext (Canonical.accepts_eq_false hG hnext hx)).expects
  have hwhole : γ ++ [x] ++ ρ = δ ++ g.rhs c.prod := by
    rw [List.append_assoc, List.singleton_append, ← hrest, Core.rest, hγ, List.append_assoc,
      List.take_append_drop, Grammar.rhs_augment hlt]
  have hend := hsees.read_rest hG (Grammar.ne_acceptProd hlt)
  rw [hrest, List.append_cons, hwhole, Grammar.rhs_augment hlt] at hend
  rw [hwhole] at hread
  rw [Grammar.lhs_augment hlt]
  exact TransGen.tail'_iff.2 ⟨_, hread, h.reduces_of_sees hlt hend⟩

/-- A terminal that an item calls for is not reduced before. -/
theorem not_reduces (h : ConflictFree g t)
    (hc : Canonical.Closure g.augment (Canonical.kernelAfter g.augment γ) c)
    (hnext : c.next? g.augment = some (.terminal a)) : ¬ Reduces g t a γ γ' := by
  rintro ⟨δ, p, i, -, -, hwalk, haction⟩
  by_cases ha : a = g.eof
  · subst ha
    obtain ⟨hprod, hdot⟩ :=
      Canonical.accepts_iff.1 (Canonical.accepts_of_next?_eof h.isAugmented hnext)
    have haccept := h.accept_of_closure hwalk (by rw [← hprod, ← hdot]; exact hc)
    rw [haction] at haccept
    exact absurd haccept (by simp)
  · obtain ⟨j, hj⟩ := h.exists_shift hwalk hc hnext ha
    rw [haction] at hj
    exact absurd hj (by simp)

/-- The reductions before a terminal with which the rest of an item begins come to an end. -/
theorem halts_of_begins (h : ConflictFree g t) {ρ : List Symbol} (hρ : g.augment.Begins a ρ)
    (hc : Canonical.Closure g.augment (Canonical.kernelAfter g.augment γ) c)
    (hrest : c.rest g.augment = ρ) : Halts g t a γ := by
  induction hρ generalizing γ c with
  | here ρ =>
    exact Acc.intro _ fun γ' hstep => absurd hstep (h.not_reduces hc (Canonical.next?_of_rest hrest))
  | @inside p ρ hp _ ih =>
    have hlisted := Grammar.listsAll_augment h.wellFormed h.listsAll p hp
    exact ih (Canonical.Closure.expand hc (Canonical.next?_of_rest hrest) hlisted) rfl
  | @behind n ρ hn hρ ih =>
    have hnext := Canonical.next?_of_rest hrest
    refine .of_reaches (h.reaches_of_vanishes hn hc hrest (Or.inl hρ)) ?_
    exact ih (Canonical.closure_goto h.isAugmented hc hnext (by simp)) (Canonical.rest_succ hrest)

/-- The symbols before the dot of an item have been read last, and the reductions after its
nonterminal come to an end. -/
def Returns (g : Grammar) (t : Tables) (a : Nat) (γ : List Symbol) (c : Core) : Prop :=
  ∃ δ, γ = δ ++ (g.augment.rhs c.prod).take c.dot ∧
    (c.prod ≠ g.augment.acceptProd → Halts g t a (δ ++ [.nonterminal (g.augment.lhs c.prod)]))

/-- The reductions after a symbol that an item calls for come to an end, if those after the
nonterminal of the item do. -/
theorem halts_of_returns (h : ConflictFree g t) {x : Symbol} {ρ : List Symbol}
    (hc : Canonical.Closure g.augment (Canonical.kernelAfter g.augment γ) c)
    (hrest : c.rest g.augment = x :: ρ) (hx : x ≠ .terminal g.eof)
    (hexpects : Canonical.Expects g.augment γ c ρ a)
    (hreturns : Canonical.Sees g.augment γ c a → Returns g t a γ c) : Halts g t a (γ ++ [x]) := by
  have hG := h.isAugmented
  have hnext := Canonical.next?_of_rest hrest
  rcases hexpects with hbegins | ⟨hρ, hsees⟩
  · exact h.halts_of_begins hbegins (Canonical.closure_goto hG hc hnext hx)
      (Canonical.rest_succ hrest)
  · obtain ⟨δ, hγ, hhalts⟩ := hreturns hsees
    have hlt := lt_of_vanishes_rest hrest hx hρ
    exact .of_reaches (h.reaches_of_sees hsees hrest hx hρ hγ).to_reflTransGen
      (hhalts (Grammar.ne_acceptProd hlt))

theorem returns_of_sees (h : ConflictFree g t) (hsees : Canonical.Sees g.augment γ c a) :
    Returns g t a γ c := by
  have hG := h.isAugmented
  induction hsees with
  | start => exact ⟨[], rfl, fun hne => absurd rfl hne⟩
  | @begins γ c a n p ρ hc hrest hp ha =>
    refine ⟨γ, (List.append_nil γ).symm, fun _ => ?_⟩
    rw [hG.lhs_of_mem_prodsOf n p hp]
    have hclosure := Canonical.closure_goto hG hc (Canonical.next?_of_rest hrest) (by simp)
    exact h.halts_of_begins ha hclosure (Canonical.rest_succ hrest)
  | @vanishes γ c a n p ρ hsees hrest hp hρ ih =>
    refine ⟨γ, (List.append_nil γ).symm, fun _ => ?_⟩
    rw [hG.lhs_of_mem_prodsOf n p hp]
    exact h.halts_of_returns hsees.closure hrest (by simp) (Or.inr ⟨hρ, hsees⟩) fun _ => ih
  | @goto γ c a x _ hx _ ih =>
    obtain ⟨δ, rfl, hhalts⟩ := ih
    refine ⟨δ, ?_, hhalts⟩
    rw [Core.next?, Core.rest, List.head?_drop] at hx
    rw [List.take_add_one, hx, Option.toList_some, List.append_assoc]

/-- The reductions after a symbol come to an end, if the terminal may come behind it. -/
theorem halts_of_expects (h : ConflictFree g t) {x : Symbol} {ρ : List Symbol}
    (hc : Canonical.Closure g.augment (Canonical.kernelAfter g.augment γ) c)
    (hrest : c.rest g.augment = x :: ρ) (hx : x ≠ .terminal g.eof)
    (hexpects : Canonical.Expects g.augment γ c ρ a) : Halts g t a (γ ++ [x]) :=
  h.halts_of_returns hc hrest hx hexpects h.returns_of_sees

/-! ### Symbols that alone become a nonterminal -/

/-- Some item calls for the symbol `x`, and the terminal `a` may come behind it. -/
def Calls (g : Grammar) (a : Nat) (δ : List Symbol) (x : Symbol) : Prop :=
  ∃ c ρ, Canonical.Closure g.augment (Canonical.kernelAfter g.augment δ) c ∧
    c.rest g.augment = x :: ρ ∧ Canonical.Expects g.augment δ c ρ a

/-- A production of which the terminal is a lookahead was taken up for its nonterminal. -/
theorem calls_of_sees (h : ConflictFree g t) {δ : List Symbol} {p : Nat} (hp : p < g.prods.size)
    (hsees : Canonical.Sees g.augment δ ⟨p, 0⟩ a) : Calls g a δ (.nonterminal (g.lhs p)) := by
  have hG := h.isAugmented
  generalize hcore : (⟨p, 0⟩ : Core) = core at hsees
  cases hsees with
  | start =>
    have hprod := congrArg Core.prod hcore
    rw [Grammar.acceptProd_augment] at hprod
    exact absurd hprod (Nat.ne_of_lt hp)
  | @begins _ c _ n q ρ hc hrest hq ha =>
    obtain rfl : p = q := congrArg Core.prod hcore
    obtain rfl : g.lhs p = n := (Grammar.lhs_augment hp).symm.trans (hG.lhs_of_mem_prodsOf n p hq)
    exact ⟨c, ρ, hc, hrest, Or.inl ha⟩
  | @vanishes _ c _ n q ρ hsees hrest hq hρ =>
    obtain rfl : p = q := congrArg Core.prod hcore
    obtain rfl : g.lhs p = n := (Grammar.lhs_augment hp).symm.trans (hG.lhs_of_mem_prodsOf n p hq)
    exact ⟨c, ρ, hsees.closure, hrest, Or.inr ⟨hρ, hsees⟩⟩
  | goto _ _ _ => exact absurd (congrArg Core.dot hcore) (by simp)

/-- Where a nonterminal is called for, so is a symbol that alone becomes it, and it does become it. -/
theorem calls_of_climbs (h : ConflictFree g t) {δ : List Symbol} {x y : Symbol}
    (hclimbs : Climbs g a x y) (hcalls : Calls g a δ y) :
    Calls g a δ x ∧ TransGen (Reduces g t a) (δ ++ [x]) (δ ++ [y]) := by
  have hG := h.isAugmented
  obtain ⟨p, ρ, -, hp, rfl, hrhs, hρ, -⟩ := hclimbs
  obtain ⟨c, σ, hc, hrest, hexpects⟩ := hcalls
  have hlisted : p ∈ g.augment.prodsOf (g.lhs p) := by
    rw [Grammar.prodsOf_augment (h.wellFormed.lhs_lt p hp)]
    exact h.listsAll p hp
  have hsees := hexpects.sees_expand hc hrest hlisted
  have hrest' : Core.rest g.augment ⟨p, 0⟩ = x :: ρ := by
    rw [Core.rest, List.drop_zero, Grammar.rhs_augment hp, hrhs]
  have hx : x ≠ .terminal g.augment.eof := by
    rintro rfl
    refine h.wellFormed.eof_not_mem p ?_
    rw [hrhs]
    exact List.mem_cons_self
  refine ⟨⟨⟨p, 0⟩, ρ, hsees.closure, hrest', Or.inr ⟨hρ, hsees⟩⟩, ?_⟩
  rw [← Grammar.lhs_augment hp]
  exact h.reaches_of_sees hsees hrest' hx hρ (List.append_nil δ).symm

/-- No symbol alone becomes itself. -/
theorem not_transGen_climbs (h : ConflictFree g t) {x : Symbol} :
    ¬ TransGen (Climbs g a) x x := by
  have hdown : ∀ {x y : Symbol} {δ : List Symbol}, TransGen (Climbs g a) x y → Calls g a δ y →
      Calls g a δ x ∧ TransGen (Reduces g t a) (δ ++ [x]) (δ ++ [y]) := by
    intro x y δ hclimbs hcalls
    induction hclimbs with
    | single hclimb => exact h.calls_of_climbs hclimb hcalls
    | tail _ hclimb ih =>
      obtain ⟨hcalls, hstep⟩ := h.calls_of_climbs hclimb hcalls
      obtain ⟨hcalls, hsteps⟩ := ih hcalls
      exact ⟨hcalls, hsteps.trans hstep⟩
  intro hcycle
  obtain ⟨y, -, p, ρ, δ, hp, rfl, -, -, hsees⟩ := TransGen.tail'_iff.1 hcycle
  have hcalls := h.calls_of_sees hp hsees
  obtain ⟨c, σ, hc, hrest, hexpects⟩ := hcalls
  have hhalts := h.halts_of_expects hc hrest (by simp) hexpects
  exact hhalts.not_transGen (hdown hcycle ⟨c, σ, hc, hrest, hexpects⟩).2

/-! ### Any terminal -/

/-- After symbols that lead to the same state the same is reduced, until this reaches below. -/
theorem halts_of_twin (h : ConflictFree g t) {twin η : List Symbol}
    (hwalk : walk (statesOf g) 0 γ = walk (statesOf g) 0 twin)
    (hbelow : HaltsBelow g t a γ) (hη : g.augment.Vanishes η) (hhalts : Halts g t a (twin ++ η)) :
    Halts g t a (γ ++ η) := by
  generalize hγη : twin ++ η = γη at hhalts
  induction hhalts generalizing η with
  | intro γη _ ih =>
    subst hγη
    refine Acc.intro _ ?_
    rintro γ' ⟨δ, p, i, heq, rfl, hi, haction⟩
    by_cases hlength : δ.length < γ.length
    · exact hbelow δ p i η hη heq hlength hi haction
    · -- what is reduced was read after `γ`, so it is also reduced after the other symbols
      obtain ⟨η', rfl⟩ : γ <+: δ := by
        refine List.prefix_of_prefix_length_le (List.prefix_append γ η) ?_ (Nat.le_of_not_lt hlength)
        exact ⟨_, heq.symm⟩
      rw [List.append_assoc] at heq
      obtain rfl := List.append_cancel_left heq
      obtain ⟨hp, -⟩ := h.reduce_spec h.wellFormed hi haction
      have hvanish : g.augment.Vanishes (η' ++ [.nonterminal (g.lhs p)]) := by
        obtain ⟨hη', hrhs⟩ := Grammar.vanishes_append.1 hη
        refine Grammar.vanishes_append.2 ⟨hη', Grammar.vanishes_nonterminal_iff.2 ⟨p, ?_, ?_, ?_⟩⟩
        · rw [Grammar.size_prods_augment]
          exact Nat.lt_succ_of_lt hp
        · exact Grammar.lhs_augment hp
        · rw [Grammar.rhs_augment hp]
          exact hrhs
      rw [List.append_assoc]
      refine ih (twin ++ (η' ++ [.nonterminal (g.lhs p)])) ?_ hvanish rfl
      refine ⟨twin ++ η', p, i, (List.append_assoc _ _ _).symm, (List.append_assoc _ _ _).symm, ?_,
        haction⟩
      rw [Collection.walk_append, ← hwalk, ← Collection.walk_append]
      exact hi

/-- Some symbols lead to the state and have the terminal behind them, and after them the reductions
come to an end. So they do if those that reach below do. -/
theorem halts_of_below (h : ConflictFree g t) {i : Nat} (hwalk : walk (statesOf g) 0 γ = some i)
    (hbelow : HaltsBelow g t a γ) : Halts g t a γ := by
  by_cases hreduce : ∃ p, t.actionAt i a = .reduce p
  · obtain ⟨p, haction⟩ := hreduce
    obtain ⟨hp, -, twin, hwalk', hsees⟩ := h.reduce_spec h.wellFormed hwalk haction
    obtain ⟨δ, hδ, hhalts⟩ := h.returns_of_sees hsees
    simp only [Grammar.rhs_augment hp, List.take_length] at hδ
    subst hδ
    have hhalts := hhalts (Grammar.ne_acceptProd hp)
    rw [Grammar.lhs_augment hp] at hhalts
    have := h.halts_of_twin (hwalk.trans hwalk'.symm) hbelow .nil (by
      rw [List.append_nil]
      exact .of_reduces (h.reduces_of_sees hp hsees) hhalts)
    rwa [List.append_nil] at this
  · refine Acc.intro _ ?_
    rintro γ' ⟨δ, p, j, -, -, hj, haction⟩
    obtain rfl : i = j := Option.some.inj (hwalk.symm.trans hj)
    exact absurd ⟨p, haction⟩ hreduce

/-- The reductions come to an end, whatever has been read and whatever terminal comes. -/
theorem halts (h : ConflictFree g t) {i : Nat} (hwalk : walk (statesOf g) 0 γ = some i) :
    Halts g t a γ :=
  h.toMade.halts h.wellFormed (fun _ => h.not_transGen_climbs) h.halts_of_below hwalk

end ConflictFree

end Tables

end ShiftReduce
