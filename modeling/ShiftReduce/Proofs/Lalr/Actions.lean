import ShiftReduce.Proofs.Lalr.Tables

/-!
# What the actions do to what has been read

The states on the stack of a parser spell the symbols that have been read: the state on top is the
one that they lead to. This module says in these terms what a state offers, and so what an action
means. A shift leads on by the terminal (`Made.walk_of_shift`), a production is reduced only if its
right-hand side has been read last (`Made.reduce_spec`), and the input is accepted only at its end and
if nothing but the start symbol has been read (`Made.accept_spec`).

If no conflict had to be settled (`Tables.ConflictFree`), also the converse holds: what an item of the
state calls for is the action. A production is then reduced as soon as it has been read and a terminal
comes that may follow it. `Canonical.Expects` is this for the symbols behind the dot: the terminal
begins what they derive, or they vanish and it is a lookahead of the item.
-/

namespace ShiftReduce

open Collection (walk)

namespace Canonical

variable {g : Grammar} {γ : List Symbol} {c : Core}

theorem dot_le_of_closure (h : Closure g (kernelAfter g γ) c) :
    c.dot ≤ (g.rhs c.prod).length := by
  refine closure_induction (P := fun _ c => c.dot ≤ (g.rhs c.prod).length) ?_ ?_ ?_ h
  · exact Nat.zero_le _
  · intro γ c x _ hx _
    exact dot_lt_of_next? hx
  · intro γ c n p _ _ _
    exact Nat.zero_le _

theorem dot_eq_of_next?_none (h : Closure g (kernelAfter g γ) c) (hnext : c.next? g = none) :
    c.dot = (g.rhs c.prod).length := by
  refine Nat.le_antisymm (dot_le_of_closure h) ?_
  rw [Core.next?, Core.rest, List.head?_drop] at hnext
  exact List.getElem?_eq_none_iff.1 hnext

/-- An item that does not stand before the end of the input does not accept. -/
theorem accepts_eq_false (hg : g.IsAugmented) {x : Symbol} (hx : c.next? g = some x)
    (hne : x ≠ .terminal g.eof) : Collection.accepts g c = false := by
  by_contra haccepts
  rw [Bool.not_eq_false] at haccepts
  have heof := next?_of_accepts hg haccepts
  rw [hx, Option.some.injEq] at heof
  exact hne heof

/-- The symbols before the dot have been read from a state in which the production was taken up. -/
theorem exists_taken_up (hg : g.IsAugmented) (h : Closure g (kernelAfter g γ) c) :
    ∃ δ, γ = δ ++ (g.rhs c.prod).take c.dot ∧ (c.prod ≠ g.acceptProd →
      (kernelAfter g (δ ++ [.nonterminal (g.lhs c.prod)])).Nonempty) := by
  refine (closure_induction (P := fun γ c => Closure g (kernelAfter g γ) c ∧
    ∃ δ, γ = δ ++ (g.rhs c.prod).take c.dot ∧ (c.prod ≠ g.acceptProd →
      (kernelAfter g (δ ++ [.nonterminal (g.lhs c.prod)])).Nonempty)) ?_ ?_ ?_ h).2
  · exact ⟨.kernel rfl, [], rfl, fun hne => absurd rfl hne⟩
  · rintro γ c x ⟨hc, δ, rfl, hδ⟩ hx haccepts
    refine ⟨?_, δ, ?_, hδ⟩
    · rw [kernelAfter_append_singleton]
      exact .kernel ⟨c, hc, hx, haccepts, rfl⟩
    · rw [Core.next?, Core.rest, List.head?_drop] at hx
      rw [List.take_add_one, hx, Option.toList_some, List.append_assoc]
  · rintro γ c n p ⟨hc, -⟩ hn hp
    refine ⟨.expand hc hn hp, γ, (List.append_nil γ).symm, fun _ => ?_⟩
    rw [kernelAfter_append_singleton, hg.lhs_of_mem_prodsOf n p hp]
    exact ⟨_, c, hc, hn, accepts_eq_false hg hn (by simp), rfl⟩

theorem rest_succ {x : Symbol} {ρ : List Symbol} (h : c.rest g = x :: ρ) :
    Core.rest g ⟨c.prod, c.dot + 1⟩ = ρ := by
  rw [rest_of_next? (next?_of_rest h)] at h
  exact (List.cons.inj h).2

/-- Reading over a symbol other than the end of the input. -/
theorem closure_goto (hg : g.IsAugmented) (h : Closure g (kernelAfter g γ) c) {x : Symbol}
    (hx : c.next? g = some x) (hne : x ≠ .terminal g.eof) :
    Closure g (kernelAfter g (γ ++ [x])) ⟨c.prod, c.dot + 1⟩ := by
  rw [kernelAfter_append_singleton]
  exact .kernel ⟨c, h, hx, accepts_eq_false hg hx hne, rfl⟩

/-- After the symbols `ρ`, which are the last ones of the item with the core `c`, the terminal `a`
may come. -/
def Expects (g : Grammar) (γ : List Symbol) (c : Core) (ρ : List Symbol) (a : Nat) : Prop :=
  g.Begins a ρ ∨ g.Vanishes ρ ∧ Sees g γ c a

theorem Sees.expects {a : Nat} (h : Sees g γ c a) : Expects g γ c [] a := Or.inr ⟨.nil, h⟩

/-- Symbols that vanish may stand in front. -/
theorem Expects.append_left {ρ ν : List Symbol} {a : Nat} (h : Expects g γ c ρ a)
    (hν : g.Vanishes ν) : Expects g γ c (ν ++ ρ) a := by
  rcases h with h | ⟨hρ, h⟩
  · exact Or.inl (Grammar.begins_append.2 (Or.inr ⟨hν, h⟩))
  · exact Or.inr ⟨Grammar.vanishes_append.2 ⟨hν, hρ⟩, h⟩

/-- What may come behind a nonterminal is a lookahead of its productions. -/
theorem Expects.sees_expand {ρ : List Symbol} {n p a : Nat} (h : Expects g γ c ρ a)
    (hc : Closure g (kernelAfter g γ) c) (hrest : c.rest g = .nonterminal n :: ρ)
    (hp : p ∈ g.prodsOf n) : Sees g γ ⟨p, 0⟩ a := by
  rcases h with h | ⟨hρ, h⟩
  · exact .begins hc hrest hp h
  · exact .vanishes h hrest hp hρ

/-- What may come behind some symbols still may after a symbol before them has been read. -/
theorem Expects.goto {ρ : List Symbol} {a : Nat} (h : Expects g γ c ρ a) (hg : g.IsAugmented)
    {x : Symbol} (hx : c.next? g = some x) (hne : x ≠ .terminal g.eof) :
    Expects g (γ ++ [x]) ⟨c.prod, c.dot + 1⟩ ρ a := by
  rcases h with h | ⟨hρ, h⟩
  · exact Or.inl h
  · exact Or.inr ⟨hρ, .goto h hx (accepts_eq_false hg hx hne)⟩

/-- The lookaheads of an item are still seen when it has been read to its end. -/
theorem Sees.read_rest {a : Nat} (h : Sees g γ c a) (hg : g.IsAugmented)
    (hne : c.prod ≠ g.acceptProd) :
    Sees g (γ ++ c.rest g) ⟨c.prod, (g.rhs c.prod).length⟩ a := by
  generalize hrest : c.rest g = rest
  induction rest generalizing γ c with
  | nil =>
    have hnext : c.next? g = none := by rw [Core.next?, hrest, List.head?_nil]
    rw [List.append_nil, ← dot_eq_of_next?_none h.closure hnext]
    exact h
  | cons x rest ih =>
    have hx := next?_of_rest hrest
    have hxne : x ≠ .terminal g.eof := by
      rintro rfl
      exact hne (hg.eq_acceptProd_of_eof c.prod (mem_rhs_of_next? hx))
    rw [List.append_cons]
    exact ih (c := ⟨c.prod, c.dot + 1⟩) (.goto h hx (accepts_eq_false hg hx hxne)) hne
      (rest_succ hrest)

/-- The lookaheads of an item were seen when its production was taken up. -/
theorem Sees.exists_taken_up {a : Nat} (h : Sees g γ c a) : ∃ δ, Sees g δ ⟨c.prod, 0⟩ a := by
  induction h with
  | start => exact ⟨_, .start⟩
  | begins hc hrest hp ht => exact ⟨_, .begins hc hrest hp ht⟩
  | vanishes h hrest hp hvanish => exact ⟨_, .vanishes h hrest hp hvanish⟩
  | goto _ _ _ ih => exact ih

/-- The symbols after which there is an item can be read. -/
theorem nonempty_of_closure {kernel : Set Core} (h : Closure g kernel c) : kernel.Nonempty := by
  induction h with
  | kernel hc => exact ⟨_, hc⟩
  | expand _ _ _ ih => exact ih

end Canonical

namespace Tables

variable {g : Grammar} {t : Tables} {γ : List Symbol} {i a : Nat}

theorem finished_statesOf (hg : g.WellFormed) :
    Collection.Finished g.augment (statesOf g) :=
  Collection.finished_ofGrammar (Grammar.isAugmented_augment hg)

/-- The symbols that lead to a state can be read. -/
theorem kernelAfter_nonempty (hg : g.WellFormed) (hwalk : walk (statesOf g) 0 γ = some i) :
    (Canonical.kernelAfter g.augment γ).Nonempty := by
  have hfin := finished_statesOf hg
  obtain ⟨s, hs, hcores⟩ := hfin.coreSet_of_walk (Grammar.isAugmented_augment hg) hwalk
  rw [← hcores]
  exact Collection.coreSet_nonempty.2 (hfin.genuine hs).ne_nil

/-- The items of the state that some symbols lead to are those of the closure after them. -/
theorem closure_iff_exists_item (hg : g.WellFormed) (hwalk : walk (statesOf g) 0 γ = some i)
    {s : State} (hs : (statesOf g)[i]? = some s) {c : Core} :
    Canonical.Closure g.augment (Canonical.kernelAfter g.augment γ) c ↔
      ∃ item ∈ s.items g.augment, item.core = c := by
  have hfin := finished_statesOf hg
  have hG := Grammar.isAugmented_augment hg
  obtain ⟨s', hs', hcores⟩ := hfin.coreSet_of_walk hG hwalk
  obtain rfl : s = s' := Option.some.inj (hs.symm.trans hs')
  rw [← hcores, ← hfin.mem_coreSet_items hG hs, mem_coreSet]

theorem exists_state (hg : g.WellFormed) (hwalk : walk (statesOf g) 0 γ = some i) :
    ∃ s, (statesOf g)[i]? = some s := by
  obtain ⟨s, hs, -⟩ := (finished_statesOf hg).coreSet_of_walk (Grammar.isAugmented_augment hg) hwalk
  exact ⟨s, hs⟩

/-! ### What an offer tells -/

/-- A shift that is offered leads on by the terminal, which is not the end of the input and which an
item of the state calls for. -/
theorem shift_offer_spec (hg : g.WellFormed) (hwalk : walk (statesOf g) 0 γ = some i) {s : State}
    (hs : (statesOf g)[i]? = some s) {j : Nat} (ho : (a, .shift j) ∈ offers g.augment s) :
    walk (statesOf g) 0 (γ ++ [.terminal a]) = some j ∧ a ≠ g.eof ∧
      ∃ c, Canonical.Closure g.augment (Canonical.kernelAfter g.augment γ) c ∧
        c.next? g.augment = some (.terminal a) := by
  obtain ⟨item, hitem, ho⟩ := mem_offers.1 ho
  rcases mem_offersOf.1 ho with ⟨-, -, heq⟩ | ⟨hfree, ⟨k, hnext, hmove, heq⟩ | ⟨-, -, heq⟩⟩
  · exact absurd heq (by simp)
  · obtain rfl : j = k := Offer.shift.inj heq
    refine ⟨?_, ?_, item.core, (closure_iff_exists_item hg hwalk hs).2 ⟨item, hitem, rfl⟩, hnext⟩
    · rw [Collection.walk_append_singleton, hwalk, Option.bind_some, Collection.step, hs,
        Option.bind_some, hmove]
    · rintro rfl
      rw [Canonical.accepts_of_next?_eof (Grammar.isAugmented_augment hg) hnext] at hfree
      exact absurd hfree (by simp)
  · exact absurd heq (by simp)

/-- A production whose reduction is offered is one of the grammar, its right-hand side has been read
last, and the terminal is one of its lookaheads in the state. -/
theorem reduce_offer_spec (hg : g.WellFormed) (hwalk : walk (statesOf g) 0 γ = some i) {s : State}
    (hs : (statesOf g)[i]? = some s) {p : Nat} (ho : (a, .reduce p) ∈ offers g.augment s) :
    p < g.prods.size ∧
    Canonical.Closure g.augment (Canonical.kernelAfter g.augment γ) ⟨p, (g.rhs p).length⟩ ∧
    ∃ γ', walk (statesOf g) 0 γ' = some i ∧
      Canonical.Sees g.augment γ' ⟨p, (g.rhs p).length⟩ a := by
  have hG := Grammar.isAugmented_augment hg
  have hfin := finished_statesOf hg
  obtain ⟨item, hitem, ho⟩ := mem_offers.1 ho
  rcases mem_offersOf.1 ho with ⟨-, -, heq⟩ | ⟨-, ⟨k, -, -, heq⟩ | ⟨hnext, ha, heq⟩⟩
  · exact absurd heq (by simp)
  · exact absurd heq (by simp)
  · obtain rfl : p = item.core.prod := Offer.reduce.inj heq
    have hclosure := (closure_iff_exists_item hg hwalk hs).2 ⟨item, hitem, rfl⟩
    have hdot := Canonical.dot_eq_of_next?_none hclosure hnext
    -- the accepting production is never read to its end
    have hne : item.core.prod ≠ g.prods.size := by
      intro hprod
      have haccept : item.core.prod = g.augment.acceptProd := by
        rw [hprod, Grammar.acceptProd_augment]
      have hread := (Canonical.read_of_closure hG hclosure).2 haccept
      have hrhs : g.augment.rhs g.augment.acceptProd =
          [.nonterminal g.start] ++ [.terminal g.eof] := by
        rw [Grammar.acceptProd_augment, Grammar.rhs_augment_size]
        rfl
      rw [hdot, haccept, List.take_length, hrhs] at hread
      have hne := kernelAfter_nonempty hg hwalk
      rw [hread, Canonical.kernelAfter_append_singleton] at hne
      rw [show g.eof = g.augment.eof from rfl, Canonical.goto_eof hG] at hne
      exact Set.not_nonempty_empty hne
    have hlt : item.core.prod < g.prods.size := by
      have := ((hfin.genuine hs).inside_items hG.toInRange hG.toListsOwn (hfin.settled hs).closed
        hitem).1
      rw [Grammar.size_prods_augment] at this
      omega
    have hcore : item.core = ⟨item.core.prod, (g.rhs item.core.prod).length⟩ := by
      rw [← Grammar.rhs_augment hlt, ← hdot]
    refine ⟨hlt, hcore ▸ hclosure, ?_⟩
    rw [← hcore]
    exact (hfin.mem_look_iff hG hs hitem).1 ha

/-- To accept is offered at the end of the input, after the start symbol. -/
theorem accept_offer_spec (hg : g.WellFormed) (hwalk : walk (statesOf g) 0 γ = some i) {s : State}
    (hs : (statesOf g)[i]? = some s) (ho : (a, .accept) ∈ offers g.augment s) :
    a = g.eof ∧ γ = [.nonterminal g.start] := by
  have hG := Grammar.isAugmented_augment hg
  obtain ⟨item, hitem, ho⟩ := mem_offers.1 ho
  rcases mem_offersOf.1 ho with ⟨haccepts, rfl, -⟩ | ⟨-, ⟨k, -, -, heq⟩ | ⟨-, -, heq⟩⟩
  · refine ⟨rfl, ?_⟩
    obtain ⟨hprod, hdot⟩ := Canonical.accepts_iff.1 haccepts
    have hclosure := (closure_iff_exists_item hg hwalk hs).2 ⟨item, hitem, rfl⟩
    rw [(Canonical.read_of_closure hG hclosure).2 hprod, hdot, Grammar.acceptProd_augment,
      Grammar.rhs_augment_size]
    rfl
  · exact absurd heq (by simp)
  · exact absurd heq (by simp)

/-! ### What is offered -/

/-- A terminal that an item calls for is offered to be shifted. -/
theorem exists_shift_offer (hg : g.WellFormed) (hwalk : walk (statesOf g) 0 γ = some i) {s : State}
    (hs : (statesOf g)[i]? = some s) {c : Core}
    (hc : Canonical.Closure g.augment (Canonical.kernelAfter g.augment γ) c)
    (hnext : c.next? g.augment = some (.terminal a)) (ha : a ≠ g.eof) :
    a < g.terminals.size ∧ ∃ j, (a, .shift j) ∈ offers g.augment s := by
  have hG := Grammar.isAugmented_augment hg
  have hne : Symbol.terminal a ≠ .terminal g.augment.eof := fun heq => ha (Symbol.terminal.inj heq)
  obtain ⟨item, hitem, rfl⟩ := (closure_iff_exists_item hg hwalk hs).1 hc
  have haccepts := Canonical.accepts_eq_false hG hnext hne
  obtain ⟨j, hj⟩ := (finished_statesOf hg).exists_move? hG.toInRange hs (x := .terminal a)
    (List.ne_nil_of_mem (Collection.mem_advance.2 ⟨item, hitem, hnext, haccepts, rfl⟩))
  refine ⟨hG.terminal_lt _ a (Canonical.mem_rhs_of_next? hnext), j, ?_⟩
  refine mem_offers.2 ⟨item, hitem, mem_offersOf.2 (Or.inr ⟨haccepts, Or.inl ?_⟩)⟩
  exact ⟨j, hnext, hj, rfl⟩

/-- A production that has been read is offered to be reduced on its lookaheads. -/
theorem reduce_offer_of_sees (hg : g.WellFormed) (hwalk : walk (statesOf g) 0 γ = some i)
    {s : State} (hs : (statesOf g)[i]? = some s) {p : Nat} (hp : p < g.prods.size)
    (hsees : Canonical.Sees g.augment γ ⟨p, (g.rhs p).length⟩ a) :
    a < g.terminals.size ∧ (a, .reduce p) ∈ offers g.augment s := by
  have hG := Grammar.isAugmented_augment hg
  have hfin := finished_statesOf hg
  obtain ⟨item, hitem, hcore, hlook⟩ := hfin.exists_item hG hsees hwalk hs
  have hnext : item.core.next? g.augment = none := by
    rw [hcore, Core.next?, Core.rest, Grammar.rhs_augment hp, List.drop_length, List.head?_nil]
  have haccepts : Collection.accepts g.augment item.core = false := by
    by_contra haccepts
    rw [Bool.not_eq_false] at haccepts
    rw [Canonical.next?_of_accepts hG haccepts] at hnext
    exact absurd hnext (by simp)
  have hbelow := ((hfin.genuine hs).inside_items hG.toInRange hG.toListsOwn (hfin.settled hs).closed
    hitem).2
  refine ⟨hbelow a hlook, mem_offers.2 ⟨item, hitem, mem_offersOf.2 (Or.inr ⟨haccepts, Or.inr ?_⟩)⟩⟩
  exact ⟨hnext, hlook, by rw [hcore]⟩

/-- Where the accepting production has been read up to the end of the input, it is offered to
accept. -/
theorem accept_offer_of_closure (hg : g.WellFormed) (hwalk : walk (statesOf g) 0 γ = some i)
    {s : State} (hs : (statesOf g)[i]? = some s)
    (hc : Canonical.Closure g.augment (Canonical.kernelAfter g.augment γ)
      ⟨g.augment.acceptProd, 1⟩) : (g.eof, .accept) ∈ offers g.augment s := by
  obtain ⟨item, hitem, hcore⟩ := (closure_iff_exists_item hg hwalk hs).1 hc
  refine mem_offers.2 ⟨item, hitem, mem_offersOf.2 (Or.inl ⟨?_, rfl, rfl⟩)⟩
  rw [hcore]
  exact Canonical.accepts_iff.2 ⟨rfl, rfl⟩

/-- After the start symbol, the accepting production stands before the end of the input. -/
theorem closure_start (hg : g.WellFormed) :
    Canonical.Closure g.augment (Canonical.kernelAfter g.augment [.nonterminal g.start])
      ⟨g.augment.acceptProd, 1⟩ := by
  have hnext : Core.next? g.augment ⟨g.augment.acceptProd, 0⟩ = some (.nonterminal g.start) := by
    rw [Core.next?, Core.rest, Grammar.acceptProd_augment, Grammar.rhs_augment_size]
    rfl
  exact Canonical.closure_goto (γ := []) (Grammar.isAugmented_augment hg) (.kernel rfl) hnext (by simp)

/-- After the start symbol it is offered to accept at the end of the input. -/
theorem accept_offer_of_start (hg : g.WellFormed)
    (hwalk : walk (statesOf g) 0 [.nonterminal g.start] = some i) {s : State}
    (hs : (statesOf g)[i]? = some s) : (g.eof, .accept) ∈ offers g.augment s :=
  accept_offer_of_closure hg hwalk hs (closure_start hg)

/-! ### What an action tells -/

/-- A shift leads on by the terminal, which is not the end of the input. -/
theorem Made.walk_of_shift (h : Made g t) (hg : g.WellFormed)
    (hwalk : walk (statesOf g) 0 γ = some i) {j : Nat} (haction : t.actionAt i a = .shift j) :
    walk (statesOf g) 0 (γ ++ [.terminal a]) = some j ∧ a ≠ g.eof := by
  obtain ⟨s, hs, ho⟩ := h.offer_of_actionAt (o := .shift j) haction
  obtain ⟨hwalk', ha, -⟩ := shift_offer_spec hg hwalk hs ho
  exact ⟨hwalk', ha⟩

/-- A terminal that is shifted occurs in a production. -/
theorem Made.exists_mem_rhs_of_shift (h : Made g t) (hg : g.WellFormed)
    (hwalk : walk (statesOf g) 0 γ = some i) {j : Nat} (haction : t.actionAt i a = .shift j) :
    ∃ p, .terminal a ∈ g.rhs p := by
  obtain ⟨s, hs, ho⟩ := h.offer_of_actionAt (o := .shift j) haction
  obtain ⟨-, ha, c, -, hnext⟩ := shift_offer_spec hg hwalk hs ho
  rcases Grammar.mem_rhs_augment (Canonical.mem_rhs_of_next? hnext) with ⟨hmem, -⟩ | ⟨-, heq | heq⟩
  · exact ⟨_, hmem⟩
  · exact absurd heq (by simp)
  · exact absurd (Symbol.terminal.inj heq) ha

/-- A production that is reduced is one of the grammar, its right-hand side has been read last, and
the terminal is one of its lookaheads in the state. -/
theorem Made.reduce_spec (h : Made g t) (hg : g.WellFormed)
    (hwalk : walk (statesOf g) 0 γ = some i) {p : Nat} (haction : t.actionAt i a = .reduce p) :
    p < g.prods.size ∧
    Canonical.Closure g.augment (Canonical.kernelAfter g.augment γ) ⟨p, (g.rhs p).length⟩ ∧
    ∃ γ', walk (statesOf g) 0 γ' = some i ∧
      Canonical.Sees g.augment γ' ⟨p, (g.rhs p).length⟩ a := by
  obtain ⟨s, hs, ho⟩ := h.offer_of_actionAt (o := .reduce p) haction
  exact reduce_offer_spec hg hwalk hs ho

/-- The input is accepted at its end, after the start symbol. -/
theorem Made.accept_spec (h : Made g t) (hg : g.WellFormed)
    (hwalk : walk (statesOf g) 0 γ = some i) (haction : t.actionAt i a = .accept) :
    a = g.eof ∧ γ = [.nonterminal g.start] := by
  obtain ⟨s, hs, ho⟩ := h.offer_of_actionAt (o := .accept) haction
  exact accept_offer_spec hg hwalk hs ho

/-- A nonterminal leads on to the entry of the other table. -/
theorem Made.walk_of_gotoAt (h : Made g t) (hwalk : walk (statesOf g) 0 γ = some i) {n j : Nat}
    (hj : t.gotoAt i n = some j) : walk (statesOf g) 0 (γ ++ [.nonterminal n]) = some j := by
  rw [Collection.walk_append_singleton, hwalk, Option.bind_some]
  exact h.step_of_gotoAt hj

/-- A production that is reduced was taken up before what it takes off, so its nonterminal can be
read there. -/
theorem Made.nonempty_of_reduce (h : Made g t) (hg : g.WellFormed) {δ : List Symbol} {p : Nat}
    (hwalk : walk (statesOf g) 0 (δ ++ g.rhs p) = some i) (haction : t.actionAt i a = .reduce p) :
    p < g.prods.size ∧
      (Canonical.kernelAfter g.augment (δ ++ [.nonterminal (g.lhs p)])).Nonempty := by
  obtain ⟨hp, hclosure, -⟩ := h.reduce_spec hg hwalk haction
  obtain ⟨δ', heq, hne⟩ := Canonical.exists_taken_up (Grammar.isAugmented_augment hg) hclosure
  simp only [Grammar.rhs_augment hp, List.take_length] at heq
  obtain rfl := List.append_cancel_right heq
  rw [Grammar.lhs_augment hp] at hne
  exact ⟨hp, hne (Grammar.ne_acceptProd hp)⟩

/-! ### What the action is -/

/-- Tables of a well-formed grammar that lists all its productions, for which no conflict had to be
settled. -/
structure ConflictFree (g : Grammar) (t : Tables) : Prop extends Made g t where
  wellFormed : g.WellFormed
  listsAll : g.ListsAll
  resolutions : t.resolutions = []

namespace ConflictFree

theorem isAugmented (h : ConflictFree g t) : g.augment.IsAugmented :=
  Grammar.isAugmented_augment h.wellFormed

/-- A terminal that an item calls for is shifted. -/
theorem exists_shift (h : ConflictFree g t) (hwalk : walk (statesOf g) 0 γ = some i) {c : Core}
    (hc : Canonical.Closure g.augment (Canonical.kernelAfter g.augment γ) c)
    (hnext : c.next? g.augment = some (.terminal a)) (ha : a ≠ g.eof) :
    ∃ j, t.actionAt i a = .shift j := by
  obtain ⟨s, hs⟩ := exists_state h.wellFormed hwalk
  obtain ⟨hlt, j, ho⟩ := exists_shift_offer h.wellFormed hwalk hs hc hnext ha
  exact ⟨j, h.actionAt_of_offer h.resolutions hs ho hlt⟩

/-- A production that has been read is reduced on its lookaheads. -/
theorem reduce_of_sees (h : ConflictFree g t) (hwalk : walk (statesOf g) 0 γ = some i) {p : Nat}
    (hp : p < g.prods.size) (hsees : Canonical.Sees g.augment γ ⟨p, (g.rhs p).length⟩ a) :
    t.actionAt i a = .reduce p := by
  obtain ⟨s, hs⟩ := exists_state h.wellFormed hwalk
  obtain ⟨hlt, ho⟩ := reduce_offer_of_sees h.wellFormed hwalk hs hp hsees
  exact h.actionAt_of_offer h.resolutions hs ho hlt

/-- After the start symbol the input is accepted at its end. -/
theorem accept_of_closure (h : ConflictFree g t) (hwalk : walk (statesOf g) 0 γ = some i)
    (hc : Canonical.Closure g.augment (Canonical.kernelAfter g.augment γ)
      ⟨g.augment.acceptProd, 1⟩) : t.actionAt i g.eof = .accept := by
  obtain ⟨s, hs⟩ := exists_state h.wellFormed hwalk
  have ho := accept_offer_of_closure h.wellFormed hwalk hs hc
  exact h.actionAt_of_offer h.resolutions hs ho h.wellFormed.eof_lt

end ConflictFree

/-- A nonterminal that can be read has an entry in the other table. -/
theorem Made.exists_gotoAt (h : Made g t) (hg : g.WellFormed)
    (hwalk : walk (statesOf g) 0 γ = some i) {n : Nat}
    (hne : (Canonical.kernelAfter g.augment (γ ++ [.nonterminal n])).Nonempty) :
    ∃ j, t.gotoAt i n = some j := by
  have hG := Grammar.isAugmented_augment hg
  obtain ⟨j, hj⟩ := (finished_statesOf hg).exists_walk hG hne
  rw [Collection.walk_append_singleton, hwalk, Option.bind_some] at hj
  rw [Canonical.kernelAfter_append_singleton] at hne
  obtain ⟨-, b, -, hnext, -⟩ := hne
  have hn : n < g.augment.nts.size :=
    hG.nonterminal_lt b.prod n (Canonical.mem_rhs_of_next? hnext)
  exact ⟨j, by rw [h.gotoAt_eq, if_pos hn, hj]⟩

end Tables

end ShiftReduce
