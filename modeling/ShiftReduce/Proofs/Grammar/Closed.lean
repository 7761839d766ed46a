import ShiftReduce.Proofs.Grammar.Declared

/-!
# Grammars that are closed under their numbers

A grammar stores numbers of terminals, nonterminals, productions and precedence groups.
`Grammar.Closed` says that each of them names something in the grammar, and `Grammar.InBounds` says so of
all but the groups of productions. What a draft makes is in bounds, whatever numbers its declarations
mention. The groups that productions have been given are not looked at when it is built, so it is closed
exactly if these groups have been declared (`Draft.Declared.closed_iff`).
-/

namespace ShiftReduce

namespace Grammar

variable {g : Grammar}

/-- All numbers stored in the grammar name something in it, those of the groups of productions apart. -/
structure InBounds (g : Grammar) : Prop extends InRange g where
  listed_lt : ∀ n, ∀ p ∈ g.prodsOf n, p < g.prods.size
  terminalGroup_lt : ∀ {t q : Nat}, g.terminals[t]?.bind Terminal.prec = some q → q < g.precs.size
  start_lt : g.start < g.nts.size
  eof_lt : g.eof < g.terminals.size
  error_lt : ∀ {e : Nat}, g.error = some e → e < g.terminals.size

/-- All numbers stored in the grammar name something in it. -/
structure Closed (g : Grammar) : Prop extends InBounds g where
  prodGroup_lt : ∀ {p q : Nat}, g.prods[p]?.bind Production.prec = some q → q < g.precs.size

/-- The symbol is one of the grammar. -/
def Names (g : Grammar) : Symbol → Prop
  | .nonterminal n => n < g.nts.size
  | .terminal t => t < g.terminals.size

instance (g : Grammar) : DecidablePred g.Names
  | .nonterminal n => inferInstanceAs (Decidable (n < g.nts.size))
  | .terminal t => inferInstanceAs (Decidable (t < g.terminals.size))

/-- Whether all numbers name something can be seen from the parts of the grammar. -/
theorem closed_iff : g.Closed ↔
    (∀ p < g.prods.size, g.lhs p < g.nts.size ∧ (∀ x ∈ g.rhs p, g.Names x) ∧
      ∀ q ∈ g.prods[p]?.bind Production.prec, q < g.precs.size) ∧
    (∀ n < g.nts.size, ∀ p ∈ g.prodsOf n, p < g.prods.size) ∧
    (∀ t < g.terminals.size, ∀ q ∈ g.terminals[t]?.bind Terminal.prec, q < g.precs.size) ∧
    g.start < g.nts.size ∧ g.eof < g.terminals.size ∧ ∀ e ∈ g.error, e < g.terminals.size := by
  constructor
  · intro h
    refine ⟨fun p hp => ⟨h.lhs_lt p hp, ?_, fun q => h.prodGroup_lt⟩, fun n _ => h.listed_lt n,
      fun t _ q => h.terminalGroup_lt, h.start_lt, h.eof_lt, fun e => h.error_lt⟩
    rintro (n | t) hx
    · exact h.nonterminal_lt p n hx
    · exact h.terminal_lt p t hx
  · rintro ⟨hprods, hnts, hterminals, hstart, heof, herror⟩
    have hrhs : ∀ {p x}, x ∈ g.rhs p → g.Names x := fun hx =>
      (hprods _ (lt_size_of_mem_rhs hx)).2.1 _ hx
    -- a number that names nothing has no entry, so nothing is listed for it and it has no group
    exact
      { lhs_lt := fun p hp => (hprods p hp).1
        nonterminal_lt := fun p n hn => hrhs hn
        terminal_lt := fun p t ht => hrhs ht
        listed_lt := fun n p hp => by
          by_cases hn : n < g.nts.size
          · exact hnts n hn p hp
          · rw [prodsOf_eq_nil (Nat.le_of_not_lt hn)] at hp
            exact absurd hp List.not_mem_nil
        terminalGroup_lt := fun {t q} hq => by
          obtain ⟨terminal, hterminal, -⟩ := Option.bind_eq_some_iff.1 hq
          exact hterminals t (Array.getElem?_eq_some_iff.1 hterminal).1 q hq
        start_lt := hstart
        eof_lt := heof
        error_lt := fun {e} he => herror e he
        prodGroup_lt := fun {p q} hq => by
          obtain ⟨prod, hprod, -⟩ := Option.bind_eq_some_iff.1 hq
          exact (hprods p (Array.getElem?_eq_some_iff.1 hprod).1).2.2 q hq }

instance (g : Grammar) : Decidable g.Closed := decidable_of_iff _ closed_iff.symm

/-- Augmenting keeps all numbers in bounds. -/
theorem InBounds.augment (h : g.InBounds) (hg : g.WellFormed) : g.augment.InBounds where
  toInRange := (isAugmented_augment hg).toInRange
  listed_lt := (isAugmented_augment hg).lt_of_mem_prodsOf
  terminalGroup_lt := h.terminalGroup_lt
  start_lt := by
    rw [size_nts_augment]
    exact Nat.lt_succ_self _
  eof_lt := h.eof_lt
  error_lt := h.error_lt

/-- The new production has no group. -/
theorem Closed.augment (h : g.Closed) (hg : g.WellFormed) : g.augment.Closed where
  toInBounds := h.toInBounds.augment hg
  prodGroup_lt {p q} hq := by
    rw [Grammar.augment, Array.getElem?_push] at hq
    split at hq
    · exact absurd hq (by simp)
    · exact h.prodGroup_lt hq

/-! ### Looking up groups -/

/-- A terminal exists, and so does its group if it has one. -/
def FindsTerminalPrec (g : Grammar) (t : Nat) : Prop :=
  ∃ terminal, g.terminals[t]? = some terminal ∧ ∀ q ∈ terminal.prec, ∃ group, g.group q = some group

/-- A production exists, and so does its group if it has one. -/
def FindsProdPrec (g : Grammar) (p : Nat) : Prop :=
  ∃ prod, g.prods[p]? = some prod ∧ ∀ q ∈ prod.prec, ∃ group, g.group q = some group

theorem InBounds.findsTerminalPrec (h : g.InBounds) {t : Nat} (ht : t < g.terminals.size) :
    g.FindsTerminalPrec t := by
  have hget := Array.getElem?_eq_getElem ht
  refine ⟨_, hget, fun q hq => ⟨_, Array.getElem?_eq_getElem (h.terminalGroup_lt (t := t) ?_)⟩⟩
  rw [hget, Option.bind_some]
  exact hq

theorem Closed.findsProdPrec (h : g.Closed) {p : Nat} (hp : p < g.prods.size) :
    g.FindsProdPrec p := by
  have hget := Array.getElem?_eq_getElem hp
  refine ⟨_, hget, fun q hq => ⟨_, Array.getElem?_eq_getElem (h.prodGroup_lt (p := p) ?_)⟩⟩
  rw [hget, Option.bind_some]
  exact hq

end Grammar

namespace Draft

variable {d d' : Draft} {start : Nat} {g : Grammar}

/-- The groups that productions have been given have been declared. -/
def GroupsDeclared (d : Draft) : Prop :=
  ∀ (p q : Nat), d.prods[p]?.bind Production.prec = some q → q < d.precs.size

/-- The group of a production is the one it was given, or else that of one of its terminals. -/
theorem settleProd_prec {ts : Array Terminal} {nts : Nat} {prod prod' : Production}
    (h : settleProd ts nts prod = .ok prod') {q : Nat} :
    (prod.prec = some q → prod'.prec = some q) ∧
    (prod'.prec = some q → prod.prec = some q ∨ ∃ t : Nat, ts[t]?.bind Terminal.prec = some q) := by
  rw [settleProd] at h
  split at h
  · obtain rfl := Except.ok.inj h
    refine ⟨fun hq => by simp [hq], fun hq => ?_⟩
    rcases Option.or_eq_some_iff.1 hq with hq | ⟨-, hq⟩
    · exact Or.inl hq
    · obtain ⟨x, -, hx⟩ := List.exists_of_findSome?_eq_some hq
      cases x with
      | terminal t => exact Or.inr ⟨t, hx⟩
      | nonterminal n => exact absurd hx (by simp [symbolGroup])
  · exact absurd h (by simp)

/-- The terminals of the grammar have groups that have been declared. -/
theorem Settles.terminalGroup_lt (hd : d.Ungrouped) (h : Settles d d' start) {t q : Nat}
    (hq : d'.terminals[t]?.bind Terminal.prec = some q) : q < d.precs.size :=
  hd.member _ ((h.prec_eq_some_iff hd).1 hq)

/-- What a draft makes is in bounds. -/
theorem Declared.inBounds (h : d.Declared) (hg : d.build start = .ok g) : g.InBounds := by
  have hwf := h.consistent.wellFormed hg
  refine
    { toInRange := hwf.toInRange
      listed_lt := hwf.lt_of_mem_prodsOf
      terminalGroup_lt := fun {t q} hq => ?_
      start_lt := hwf.start_lt
      eof_lt := hwf.eof_lt
      error_lt := h.consistent.error_lt hg }
  obtain ⟨d', hd', rfl⟩ := exists_settles_of_build hg
  rw [finish, Array.getElem?_push] at hq
  split at hq
  · exact absurd hq (by simp)
  · exact Nat.lt_of_lt_of_eq (hd'.terminalGroup_lt h.ungrouped hq) (congrArg Array.size hd'.precs).symm

/-- What a draft makes is closed exactly if the groups that productions have been given have been
declared. -/
theorem Declared.closed_iff (h : d.Declared) (hg : d.build start = .ok g) :
    g.Closed ↔ d.GroupsDeclared := by
  have hbounds := h.inBounds hg
  obtain ⟨d', hd', rfl⟩ := exists_settles_of_build hg
  have hprecs : (d'.finish start).precs.size = d.precs.size := congrArg Array.size hd'.precs
  constructor
  · intro hclosed p q hq
    obtain ⟨prod, hprod, hprec⟩ := Option.bind_eq_some_iff.1 hq
    obtain ⟨prod', hprod', hsettled⟩ := hd'.settled hprod
    rw [← hprecs]
    refine hclosed.prodGroup_lt (p := p) ?_
    rw [show (d'.finish start).prods = d'.prods from rfl, hprod', Option.bind_some]
    exact (settleProd_prec hsettled).1 hprec
  · intro hdeclared
    refine { toInBounds := hbounds, prodGroup_lt := fun {p q} hq => ?_ }
    obtain ⟨prod', hprod', hprec⟩ := Option.bind_eq_some_iff.1 hq
    have hlt : p < d.prods.size :=
      Nat.lt_of_lt_of_eq (Array.getElem?_eq_some_iff.1 hprod').1 hd'.size_prods
    have hprod := Array.getElem?_eq_getElem hlt
    obtain ⟨prod'', hprod'', hsettled⟩ := hd'.settled hprod
    obtain rfl : prod' = prod'' := Option.some.inj (hprod'.symm.trans hprod'')
    rw [hprecs]
    rcases (settleProd_prec hsettled).2 hprec with hgiven | ⟨t, ht⟩
    · refine hdeclared p q ?_
      rw [hprod, Option.bind_some]
      exact hgiven
    · exact hd'.terminalGroup_lt h.ungrouped ht

/-- The end of the input is the last terminal. -/
theorem eof_of_build (hg : d.build start = .ok g) : g.eof + 1 = g.terminals.size := by
  obtain ⟨d', -, rfl⟩ := exists_settles_of_build hg
  rw [finish, Array.size_push]

end Draft

end ShiftReduce
