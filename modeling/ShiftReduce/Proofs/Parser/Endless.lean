import ShiftReduce.Proofs.Lalr.Recursion
import ShiftReduce.Proofs.Parser.Safety
import ShiftReduce.Proofs.Parser.Termination

/-!
# Which parses come to an end

Precedence can make a table reduce for ever: `Parser.endless_circle` is about a parser that does. But
it takes a grammar in which a nonterminal derives itself, or comes again behind symbols that vanish.
All other parsers come to an end on every input, also if conflicts were settled, and so does every
parser of a grammar without conflicts that lists all its productions. A parse that does not end comes
to a token before which it reduces for ever. `Blueprint.Declared.parse_ends` says all of this.
-/

namespace ShiftReduce

deriving instance DecidableEq for Config

namespace Parser

variable {α : Type} {p : Parser α} {input : String} {c : Config α}

/-! ### Parses that have not ended -/

theorem parseWithin_of_le {fuel fuel' : Nat} {o : Outcome α}
    (h : p.parseWithin fuel input = some o) (hle : fuel ≤ fuel') :
    p.parseWithin fuel' input = some o := by
  rw [parseWithin] at h ⊢
  split at h
  · exact h
  · exact run_of_le h hle

theorem ends_of_parseWithin {fuel : Nat} {o : Outcome α} (h : p.parseWithin fuel input = some o) :
    p.Ends input o :=
  ⟨fuel, fun _ hle => parseWithin_of_le h hle⟩

theorem parseWithin_add_eq_none_iff {k : Nat} (h : p.configAfter input k = some c) (fuel : Nat) :
    p.parseWithin (k + fuel) input = none ↔ p.run input fuel c = none := by
  induction k generalizing c fuel with
  | zero =>
    rw [configAfter] at h
    rw [Nat.zero_add, parseWithin]
    split at h
    · next token ahead hnext => rw [hnext, ← Option.some.inj h]
    · exact absurd h (by simp)
  | succ k ih =>
    obtain ⟨c₀, moves, hc₀, hstep⟩ := exists_step_of_configAfter h
    rw [Nat.add_assoc, Nat.add_comm 1 fuel, ih hc₀, run_of_next hstep, Option.map_eq_none_iff]

/-- A parse has not ended within some steps exactly if there is a configuration after them. -/
theorem parseWithin_eq_none_iff {k : Nat} :
    p.parseWithin k input = none ↔ ∃ c, p.configAfter input k = some c := by
  constructor
  · intro h
    induction k with
    | zero =>
      rw [parseWithin] at h
      split at h
      · exact absurd h (by simp)
      · next token ahead hnext => exact ⟨_, by rw [configAfter, hnext]⟩
    | succ k ih =>
      have hbefore : p.parseWithin k input = none := by
        refine Option.eq_none_iff_forall_ne_some.2 fun o ho => ?_
        rw [parseWithin_of_le ho (Nat.le_succ k)] at h
        exact absurd h (by simp)
      obtain ⟨c, hc⟩ := ih hbefore
      rw [parseWithin_add_eq_none_iff hc 1] at h
      cases hstep : p.step input c with
      | mk moves result =>
        cases result with
        | done result =>
          rw [run_of_done hstep 0] at h
          exact absurd h (by simp)
        | next c' => exact ⟨c', by rw [configAfter, hc, Option.bind_some, hstep]⟩
  · rintro ⟨c, hc⟩
    exact (parseWithin_add_eq_none_iff hc 0).2 rfl

/-- A step keeps the token or uses something up, and if it keeps both it reduces. -/
theorem Proper.budget_step (hp : p.Proper) {k : Nat} {c' : Config α}
    (hc : p.configAfter input k = some c) (hc' : p.configAfter input (k + 1) = some c') :
    p.budget c' < p.budget c ∨ p.budget c' = p.budget c ∧ c'.token = c.token ∧
      ∃ prod, p.tables.actionAt (p.top c.stack) c.token.terminal = .reduce prod := by
  obtain ⟨c₀, moves, hc₀, hstep⟩ := exists_step_of_configAfter hc'
  obtain rfl : c = c₀ := Option.some.inj (hc.symm.trans hc₀)
  obtain ⟨tokens, forest, hsound⟩ := (reached_of_configAfter hc).exists_sound hp
  obtain ⟨_, _, _, hprogress⟩ := hsound.progress hp hstep
  refine hprogress.imp_right ?_
  rintro ⟨hbudget, htoken, -, prod, i, -, -, hwalk, haction⟩
  obtain rfl : i = p.top c.stack := by
    rw [hp.top_eq]
    exact Option.some.inj (hwalk.symm.trans hsound.stacked.walk_topState)
  exact ⟨hbudget, htoken, prod, haction⟩

/-- The parse reduces before the same token for ever. -/
def Circles (p : Parser α) (input : String) : Prop :=
  ∃ first token, ∀ k ≥ first, ∃ c prod, p.configAfter input k = some c ∧ c.token = token ∧
    p.tables.actionAt (p.top c.stack) token.terminal = .reduce prod

/-- A parse that does not end reduces before the same token for ever. -/
theorem Proper.circles_of_endless (hp : p.Proper) (h : ∀ k, ∃ c, p.configAfter input k = some c) :
    p.Circles input := by
  choose config hconfig using h
  have hstep := fun k => hp.budget_step (hconfig k) (hconfig (k + 1))
  -- what can be used up is used up at some point
  obtain ⟨first, hfirst⟩ : ∃ first, ∀ k, p.budget (config first) ≤ p.budget (config k) := by
    obtain ⟨_, ⟨first, rfl⟩, hmin⟩ := WellFounded.has_min (wellFounded_lt (α := Nat))
      (Set.range fun k => p.budget (config k)) ⟨_, 0, rfl⟩
    exact ⟨first, fun k => Nat.le_of_not_lt (hmin _ ⟨k, rfl⟩)⟩
  have hkept : ∀ k ≥ first, p.budget (config k) = p.budget (config first) ∧
      (config k).token = (config first).token := by
    intro k hk
    induction k, hk using Nat.le_induction with
    | base => exact ⟨rfl, rfl⟩
    | succ k _ ih =>
      rcases hstep k with hlt | ⟨heq, htoken, -⟩
      · rw [ih.1] at hlt
        exact absurd hlt (Nat.not_lt_of_le (hfirst (k + 1)))
      · exact ⟨heq.trans ih.1, htoken.trans ih.2⟩
  refine ⟨first, (config first).token, fun k hk => ?_⟩
  obtain ⟨hbudget, htoken⟩ := hkept k hk
  rcases hstep k with hlt | ⟨-, -, prod, haction⟩
  · rw [hbudget] at hlt
    exact absurd hlt (Nat.not_lt_of_le (hfirst (k + 1)))
  · exact ⟨config k, prod, hconfig k, htoken, htoken ▸ haction⟩

end Parser

/-- Every parse comes to an end, however conflicts were settled, if the grammar has neither cycles nor
hidden left recursion. It also does if no conflict had to be settled and every production is listed.
In all other cases a parse comes to an end, or to a token before which it reduces for ever. -/
theorem Blueprint.Declared.parse_ends {α : Type} {b : Blueprint α} (hb : b.Declared) {p : Parser α}
    (hp : b.build = .ok p) (input : String) :
    (¬ p.grammar.IsCyclic → ¬ p.grammar.HidesLeftRecursion → ∃ o, p.Ends input o) ∧
    (p.tables.resolutions = [] → p.grammar.ListsAll → ∃ o, p.Ends input o) ∧
    ((∃ o, p.Ends input o) ∨ p.Circles input) := by
  have hproper := hb.proper hp
  refine ⟨?_, fun hres hall => hproper.exists_ends hall hres input, ?_⟩
  · intro hcyclic hidden
    refine hproper.exists_ends_of_halts ?_ input
    exact hproper.made.halts_of_not_recursive hproper.wellFormed hcyclic hidden
  · by_cases hendless : ∀ k, ∃ c, p.configAfter input k = some c
    · exact Or.inr (hproper.circles_of_endless hendless)
    · obtain ⟨k, hk⟩ := not_forall.1 hendless
      rw [← Parser.parseWithin_eq_none_iff, Option.eq_none_iff_forall_ne_some, not_forall] at hk
      obtain ⟨o, ho⟩ := hk
      exact Or.inl ⟨o, Parser.ends_of_parseWithin (not_not.1 ho)⟩

/-! ### Sums -/

/-- Declarations for a parser of `E = E + E | a`, with the conflict settled to the left. -/
def Blueprint.sums : Blueprint String :=
  let b : Blueprint String := .empty
  let b := (b.terminal "a" id).1
  let b := (b.terminal "\\+" id).1
  let b := (b.nonterminal "E").1
  let b := (b.production 0 [.nonterminal 0, .terminal (.declared 1), .nonterminal 0]).1
  let b := (b.production 0 [.terminal (.declared 0)]).1
  (b.precGroup .left [.declared 1]).1

theorem Blueprint.declared_sums : Blueprint.sums.Declared := by
  refine .precGroup (.production (.production (.nonterminal ?_ _) _ _) _ _) _ _
  exact .terminal (.terminal .empty _ _) _ _

theorem Blueprint.Declared.parse_ends_sums : ∃ p, Blueprint.sums.build = .ok p ∧
    p.tables.resolutions ≠ [] ∧ ¬ p.grammar.IsCyclic ∧ ¬ p.grammar.HidesLeftRecursion ∧
    ∀ input, ∃ o, p.Ends input o := by
  obtain ⟨p, hp, hres, hterminals⟩ := Blueprint.exists_build (b := Blueprint.sums)
    (P := fun p => p.tables.resolutions ≠ [] ∧
      ∀ prod < p.grammar.prods.size, ∃ t < 2, .terminal t ∈ p.grammar.rhs prod) (by decide +kernel)
  obtain ⟨hcyclic, hidden⟩ := Grammar.not_recursive_of_terminals fun prod hprod =>
    (hterminals prod hprod).imp fun _ => And.right
  exact ⟨p, hp, hres, hcyclic, hidden,
    fun input => (Blueprint.declared_sums.parse_ends hp input).1 hcyclic hidden⟩

/-! ### A circle -/

/-- Declarations for a parser of `S = A x` and `A = A | a`, where reducing `A = A` is given
precedence over shifting `x`. -/
def Blueprint.circle : Blueprint String :=
  let b : Blueprint String := .empty
  let b := (b.terminal "a" id).1
  let b := (b.terminal "x" id).1
  let b := (b.nonterminal "S").1
  let b := (b.nonterminal "A").1
  let b := (b.production 0 [.nonterminal 1, .terminal (.declared 1)]).1
  let b := (b.production 1 [.nonterminal 1]).1
  let b := (b.production 1 [.terminal (.declared 0)]).1
  let b := (b.precGroup .left [.declared 1]).1
  let b := (b.precGroup .left []).1
  b.setPrec 1 1

theorem Blueprint.declared_circle : Blueprint.circle.Declared := by
  refine .setPrec (.precGroup (.precGroup (.production (.production (.production ?_ _ _) _ _) _ _)
    _ _) _ _) _ _
  exact .nonterminal (.nonterminal (.terminal (.terminal .empty _ _) _ _) _) _

namespace Parser

variable {α : Type} {p : Parser α} {input : String}

/-- A configuration that a step leads back to stays for ever. -/
theorem configAfter_of_eq {k : Nat} (h : p.configAfter input (k + 1) = p.configAfter input k)
    (n : Nat) : p.configAfter input (k + n) = p.configAfter input k := by
  induction n with
  | zero => rfl
  | succ n ih => rw [← Nat.add_assoc, configAfter, ih, ← configAfter, h]

/-- Behind `A` the parser reduces it to itself for ever. -/
theorem endless_circle : ∃ b : Blueprint String, b.Declared ∧ ∃ p, b.build = .ok p ∧
    ∀ fuel, p.parseWithin fuel "ax" = none := by
  refine ⟨Blueprint.circle, Blueprint.declared_circle, ?_⟩
  obtain ⟨p, hp, hsome, heq⟩ := Blueprint.exists_build (b := Blueprint.circle)
    (P := fun p => (p.configAfter "ax" 2).isSome ∧ p.configAfter "ax" 3 = p.configAfter "ax" 2)
    (by decide +kernel)
  obtain ⟨c, hc⟩ := Option.isSome_iff_exists.1 hsome
  refine ⟨p, hp, fun fuel => Option.eq_none_iff_forall_ne_some.2 fun o ho => ?_⟩
  have hlater := parseWithin_of_le ho (Nat.le_add_left fuel 2)
  rw [parseWithin_eq_none_iff.2 ⟨c, (configAfter_of_eq heq fuel).trans hc⟩] at hlater
  exact absurd hlater (by simp)

end Parser

end ShiftReduce
