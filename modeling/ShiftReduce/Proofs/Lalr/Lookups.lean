import ShiftReduce.Proofs.Grammar.Closed
import ShiftReduce.Proofs.Lalr.Conflicts

/-!
# What is looked up exists

The construction of the tables looks up productions, symbols, states and precedence groups by their
numbers. In a grammar that is in bounds all of them exist (`State.InBounds`), the groups of productions
apart, which exist if the grammar is closed. `Draft.Declared.build_inBounds` puts this together for the
grammars that drafts make. `Draft.stray_group` is a draft that makes a grammar which is not closed.
-/

namespace ShiftReduce

open Collection (kernels)

/-- All numbers in a state name something in the grammar, or one of the given number of states. -/
structure State.InBounds (g : Grammar) (count : Nat) (s : State) : Prop where
  prod_lt : ∀ item ∈ s.items g, item.core.prod < g.prods.size
  dot_le : ∀ item ∈ s.items g, item.core.dot ≤ (g.rhs item.core.prod).length
  look_lt : ∀ item ∈ s.items g, item.look.Below g.terminals.size
  nonterminal_lt : ∀ m ∈ s.moves, ∀ n, m.1 = .nonterminal n → n < g.nts.size
  terminal_lt : ∀ m ∈ s.moves, ∀ t, m.1 = .terminal t → t < g.terminals.size
  next_lt : ∀ m ∈ s.moves, m.2 < count

namespace Tables

variable {g : Grammar} {i : Nat} {s : State}

/-- All states are in bounds. -/
theorem inBounds_statesOf (hg : g.WellFormed) (hs : (statesOf g)[i]? = some s) :
    s.InBounds g.augment (statesOf g).size := by
  have hG := Grammar.isAugmented_augment hg
  have hfin := finished_statesOf hg
  have hinside := fun item (hitem : item ∈ s.items g.augment) =>
    (hfin.genuine hs).inside_items hG.toInRange hG.toListsOwn (hfin.settled hs).closed hitem
  have hmoves : ∀ m ∈ s.moves, (∃ p, m.1 ∈ g.augment.rhs p) ∧ m.2 < (statesOf g).size := by
    intro m hm
    obtain ⟨⟨x, kernel⟩, hk, hx, s', hs', -⟩ :=
      exists_of_forall₂ (hfin.settled hs).moves.flip hm
    obtain ⟨rfl, hne⟩ := (Collection.mem_kernels hG.toInRange).1 hk
    obtain ⟨item, hitem⟩ := List.exists_mem_of_ne_nil _ hne
    obtain ⟨before, -, hnext, -⟩ := Collection.mem_advance.1 hitem
    refine ⟨⟨before.core.prod, ?_⟩, (Array.getElem?_eq_some_iff.1 hs').1⟩
    rw [hx]
    exact Canonical.mem_rhs_of_next? hnext
  refine
    { prod_lt := fun item hitem => (hinside item hitem).1
      dot_le := fun item hitem => ?_
      look_lt := fun item hitem => (hinside item hitem).2
      nonterminal_lt := fun m hm n hn => ?_
      terminal_lt := fun m hm t ht => ?_
      next_lt := fun m hm => (hmoves m hm).2 }
  · obtain ⟨γ, hγ⟩ := (hfin.genuine hs).reached
    have hwalk := (hfin.walk_eq_some_iff hG).2 ⟨s, hs, hγ.symm⟩
    exact Canonical.dot_le_of_closure ((closure_iff_exists_item hg hwalk hs).2 ⟨item, hitem, rfl⟩)
  · obtain ⟨p, hp⟩ := (hmoves m hm).1
    exact hG.nonterminal_lt p n (hn ▸ hp)
  · obtain ⟨p, hp⟩ := (hmoves m hm).1
    exact hG.terminal_lt p t (ht ▸ hp)

/-- The productions whose reduction is offered exist. -/
theorem lt_of_reduce_mem_offers (hg : g.WellFormed) (hs : (statesOf g)[i]? = some s) {a p : Nat}
    (ho : (a, .reduce p) ∈ offers g.augment s) : p < g.augment.prods.size := by
  obtain ⟨item, hitem, ho⟩ := mem_offers.1 ho
  rcases mem_offersOf.1 ho with ⟨-, -, heq⟩ | ⟨-, ⟨j, -, -, heq⟩ | ⟨-, -, heq⟩⟩
  · exact absurd heq (by simp)
  · exact absurd heq (by simp)
  · rw [Offer.reduce.inj heq]
    exact (inBounds_statesOf hg hs).prod_lt item hitem

/-- What is recorded is about a state and a terminal that exist. -/
theorem resolution_inBounds (hg : g.WellFormed) {t : Tables} (ht : build g = .ok t) {r : Resolution}
    (hr : r ∈ t.resolutions) : r.state < (statesOf g).size ∧ r.terminal < g.terminals.size := by
  have hlt := lt_of_mem_resolutions ht hr
  have hs := Array.getElem?_eq_getElem hlt
  obtain ⟨cell, -, hcell⟩ := exists_recorded hg ht hs r.terminal
  obtain ⟨o, ho, -⟩ := hcell.between r.verdict
    (List.mem_map.2 ⟨r, List.mem_filter.2 ⟨hr, by simp⟩, rfl⟩)
  exact ⟨hlt, lt_of_mem_offers hg hs (mem_offersTo.1 ho)⟩

/-- A conflict is about a state and a terminal that exist. -/
theorem conflict_inBounds (hg : g.WellFormed) {e : Conflict} (he : build g = .error e) :
    e.state < (statesOf g).size ∧ e.terminal < g.terminals.size := by
  obtain ⟨halt, s, done, o, rest, -, rfl, hs, hsplit, -⟩ := exists_halt hg he
  have ho : (halt.terminal, o) ∈ offers g.augment s := by simp [hsplit]
  exact ⟨(Array.getElem?_eq_some_iff.1 hs).1, lt_of_mem_offers hg hs ho⟩

end Tables

namespace Draft

variable {d : Draft} {start : Nat} {g : Grammar}

/-- What a draft makes, whatever numbers its declarations mention. All numbers stored in the grammar name
something in it, those of the groups of productions apart, and the end of the input is the last terminal
and in no production. The grammar is closed exactly if the groups that productions have been given have
been declared. What the lexer, the construction of the tables and the reports look up exists, and in a
closed grammar so do the groups that a conflict is settled with. -/
theorem Declared.build_inBounds (h : d.Declared) (hg : d.build start = .ok g) :
    g.InBounds ∧ g.eof + 1 = g.terminals.size ∧ (∀ p, .terminal g.eof ∉ g.rhs p) ∧
    (g.Closed ↔ d.GroupsDeclared) ∧
    (∀ q ∈ g.patterns, q.terminal < g.terminals.size) ∧
    g.augment.InBounds ∧
    (∀ (i : Nat) (s : State), (Tables.statesOf g)[i]? = some s →
      s.InBounds g.augment (Tables.statesOf g).size ∧
      ∀ a o, (a, o) ∈ Tables.offers g.augment s → g.augment.FindsTerminalPrec a ∧
        (g.Closed → ∀ p, o = .reduce p → g.augment.FindsProdPrec p)) ∧
    (∀ t, Tables.build g = .ok t → ∀ r ∈ t.resolutions,
      r.state < (Tables.statesOf g).size ∧ r.terminal < g.terminals.size) ∧
    (∀ e, Tables.build g = .error e →
      e.state < (Tables.statesOf g).size ∧ e.terminal < g.terminals.size) := by
  have hwf := h.consistent.wellFormed hg
  have hbounds := h.inBounds hg
  refine ⟨hbounds, eof_of_build hg, hwf.eof_not_mem, h.closed_iff hg, ?_, hbounds.augment hwf, ?_,
    fun t ht r hr => Tables.resolution_inBounds hwf ht hr,
    fun e he => Tables.conflict_inBounds hwf he⟩
  · intro q hq
    obtain ⟨terminal, hterminal, -⟩ := exists_terminal_of_mem_patterns hq
    exact (Array.getElem?_eq_some_iff.1 hterminal).1
  · intro i s hs
    refine ⟨Tables.inBounds_statesOf hwf hs, fun a o ho => ⟨?_, ?_⟩⟩
    · have hlt := Tables.lt_of_mem_offers hwf hs ho
      exact (hbounds.augment hwf).findsTerminalPrec hlt
    · rintro hclosed p rfl
      exact (hclosed.augment hwf).findsProdPrec (Tables.lt_of_reduce_mem_offers hwf hs ho)

/-- A draft of `S = x`, whose production is given a group that has been declared. -/
def leveled : Draft :=
  let d := (empty.terminal "x" (.char 'x') false).1
  let d := (d.nonterminal "S").1
  let d := (d.precGroup .left [0]).1
  let d := (d.production 0 [.terminal 0]).1
  d.setPrec 0 0

theorem declared_leveled : leveled.Declared :=
  .setPrec (.production (.precGroup (.nonterminal (.terminal .empty _ _ _) _) _ _) _ _) _ _

theorem Declared.build_inBounds_leveled : ∃ g, leveled.build 0 = .ok g ∧ g.Closed ∧
    g.eof + 1 = g.terminals.size ∧ (∀ p, .terminal g.eof ∉ g.rhs p) ∧
    ∀ t, Tables.build g = .ok t → ∀ r ∈ t.resolutions,
      r.state < (Tables.statesOf g).size ∧ r.terminal < g.terminals.size := by
  obtain ⟨g, hg, -⟩ := exists_ok (x := leveled.build 0) (P := fun g => g.prods.size = 1)
    (by decide +kernel)
  obtain ⟨-, heof, hfree, hclosed, -, -, -, hresolutions, -⟩ := declared_leveled.build_inBounds hg
  refine ⟨g, hg, hclosed.2 ?_, heof, hfree, hresolutions⟩
  intro p q hq
  have hprods : leveled.prods = #[⟨0, [.terminal 0], some 0⟩] := by decide +kernel
  have hprecs : leveled.precs.size = 1 := by decide +kernel
  rw [hprods] at hq
  cases p with
  | zero =>
    obtain rfl : 0 = q := Option.some.inj hq
    omega
  | succ p => exact absurd hq (by simp)

/-- The group that a production is given is not looked at when the grammar is built, so the grammar may
mention one that it does not have. -/
theorem stray_group : ∃ d : Draft, d.Declared ∧ ∃ g, d.build 0 = .ok g ∧
    g.prods[0]?.bind Production.prec = some 7 ∧ g.precs.size = 0 ∧ ¬ g.Closed := by
  obtain ⟨g, hg, hprec, hsize⟩ := exists_ok
    (x := ((((empty.terminal "x" (.char 'x') false).1.nonterminal "S").1.production 0
      [.terminal 0]).1.setPrec 0 7).build 0)
    (P := fun g => g.prods[0]?.bind Production.prec = some 7 ∧ g.precs.size = 0) (by decide +kernel)
  refine ⟨_, .setPrec (.production (.nonterminal (.terminal .empty _ _ _) _) _ _) _ _, g, hg, hprec, hsize,
    fun hclosed => ?_⟩
  have hlt := hclosed.prodGroup_lt hprec
  omega

end Draft

end ShiftReduce
