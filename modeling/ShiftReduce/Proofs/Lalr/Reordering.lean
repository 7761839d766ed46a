import Mathlib.Data.Set.Function
import ShiftReduce.Proofs.Grammar.Reordered
import ShiftReduce.Proofs.Lalr.Filling

/-!
# Tables and the order of the productions

If the productions of a grammar are declared in another order, their numbers change, and with them the
order of the items in the states and the numbers of the states. Up to the new numbers the same symbols
still lead to the same states (`Tables.exists_renumbered`), and a state still makes the same offers
(`Tables.Renumbered.offers`).

So what the tables say does not depend on the order, if they are built at all. Whether they are built
can depend on it only if some state hides a tie (`Tables.HidesTie`): two productions of one level beside
something that precedence prefers to both. Both are said by `Tables.build_reordered`, and
`Tables.order_decides` is a grammar for which the order matters.
-/

namespace ShiftReduce

open Collection (walk)

/-! ### Numbers -/

/-- The core with the new number of its production. -/
def Core.renumber (π : Equiv.Perm Nat) (c : Core) : Core := ⟨π c.prod, c.dot⟩

@[simp] theorem Core.renumber_symm_renumber (π : Equiv.Perm Nat) (c : Core) :
    (c.renumber π.symm).renumber π = c := by
  simp [renumber]

/-- The offer with the new numbers of its production or its state. -/
def Offer.renumber (prods states : Nat → Nat) : Offer → Offer
  | .shift next => .shift (states next)
  | .reduce prod => .reduce (prods prod)
  | .accept => .accept

/-- The action with the new numbers of its production or its state. -/
def Action.renumber (prods states : Nat → Nat) : Action → Action
  | .shift next => .shift (states next)
  | .reduce prod => .reduce (prods prod)
  | .accept => .accept
  | .error => .error

/-- The cell with the new numbers of its production and its state. -/
def Cell.renumber (prods states : Nat → Nat) : Cell → Cell
  | .vacant => .vacant
  | .shift next => .shift (states next)
  | .reduce prod => .reduce (prods prod)
  | .accept => .accept
  | .emptied next prod => .emptied (states next) (prods prod)

theorem Cell.action_renumber (prods states : Nat → Nat) (cell : Cell) :
    (cell.renumber prods states).action = cell.action.renumber prods states := by
  cases cell <;> rfl

/-! ### The canonical collection -/

namespace Grammar.Reordered

open Canonical

variable {g g' : Grammar} {π : Equiv.Perm Nat} {γ δ : List Symbol} {c : Core} {t p q : Nat}

theorem rest_renumber (h : Reordered π g g') (c : Core) : (c.renumber π).rest g' = c.rest g := by
  rw [Core.rest, Core.rest, Core.renumber, h.rhs]

theorem next?_renumber (h : Reordered π g g') (c : Core) : (c.renumber π).next? g' = c.next? g := by
  rw [Core.next?, h.rest_renumber, Core.next?]

theorem accepts_renumber (h : Reordered π g g') (c : Core) :
    Collection.accepts g'.augment (c.renumber π) = Collection.accepts g.augment c := by
  rw [Bool.eq_iff_iff, accepts_iff, accepts_iff, ← h.acceptProd_augment]
  exact and_congr_left fun _ => π.injective.eq_iff

/-- The items after some symbols have new numbers and are otherwise the same. -/
theorem closure_renumber (h : Reordered π g g') (hc : Closure g.augment (kernelAfter g.augment γ) c) :
    Closure g'.augment (kernelAfter g'.augment γ) (c.renumber π) := by
  refine closure_induction
    (P := fun γ c => Closure g'.augment (kernelAfter g'.augment γ) (c.renumber π)) ?_ ?_ ?_ hc
  · rw [Core.renumber, h.acceptProd_augment]
    exact .kernel rfl
  · intro γ c x ih hx haccepts
    rw [kernelAfter_append_singleton]
    refine .kernel ⟨c.renumber π, ih, ?_, ?_, rfl⟩
    · rw [h.augment.next?_renumber, hx]
    · rw [h.accepts_renumber, haccepts]
  · intro γ c n p ih hn hp
    exact .expand ih ((h.augment.next?_renumber c).trans hn) ((h.augment.listed n p).2 hp)

theorem mem_kernelAfter_renumber (h : Reordered π g g') (hc : c ∈ kernelAfter g.augment γ) :
    c.renumber π ∈ kernelAfter g'.augment γ := by
  induction γ using List.reverseRecOn with
  | nil =>
    obtain rfl : c = ⟨g.augment.acceptProd, 0⟩ := hc
    rw [Core.renumber, h.acceptProd_augment]
    rfl
  | append_singleton γ x _ =>
    rw [kernelAfter_append_singleton] at hc ⊢
    obtain ⟨b, hb, hnext, haccepts, rfl⟩ := hc
    refine ⟨b.renumber π, h.closure_renumber hb, ?_, ?_, rfl⟩
    · rw [h.augment.next?_renumber, hnext]
    · rw [h.accepts_renumber, haccepts]

theorem kernelAfter_subset (h : Reordered π g g')
    (heq : kernelAfter g.augment γ = kernelAfter g.augment δ) :
    kernelAfter g'.augment γ ⊆ kernelAfter g'.augment δ := by
  intro c hc
  have hback := h.symm.mem_kernelAfter_renumber hc
  rw [heq] at hback
  simpa using h.mem_kernelAfter_renumber hback

/-- Symbols that lead to the same kernel still do. -/
theorem kernelAfter_eq (h : Reordered π g g')
    (heq : kernelAfter g.augment γ = kernelAfter g.augment δ) :
    kernelAfter g'.augment γ = kernelAfter g'.augment δ :=
  Set.Subset.antisymm (h.kernelAfter_subset heq) (h.kernelAfter_subset heq.symm)

theorem nonempty_kernelAfter (h : Reordered π g g') (hne : (kernelAfter g.augment γ).Nonempty) :
    (kernelAfter g'.augment γ).Nonempty := by
  obtain ⟨c, hc⟩ := hne
  exact ⟨_, h.mem_kernelAfter_renumber hc⟩

/-- The lookaheads of an item are the same. -/
theorem sees_renumber (h : Reordered π g g') (hsees : Sees g.augment γ c t) :
    Sees g'.augment γ (c.renumber π) t := by
  have hG := h.augment
  induction hsees with
  | start =>
    rw [Core.renumber, h.acceptProd_augment, ← hG.eof]
    exact .start
  | @begins γ c t n p rest hc hrest hp ht =>
    exact .begins (h.closure_renumber hc) ((hG.rest_renumber c).trans hrest) ((hG.listed n p).2 hp)
      (hG.begins ht)
  | @vanishes γ c t n p rest _ hrest hp hvanish ih =>
    exact .vanishes ih ((hG.rest_renumber c).trans hrest) ((hG.listed n p).2 hp)
      (hG.vanishes hvanish)
  | @goto γ c t x _ hx haccepts ih =>
    exact .goto ih ((hG.next?_renumber c).trans hx) ((h.accepts_renumber c).trans haccepts)

theorem outranks_iff (h : Reordered π g g') : g'.Outranks (π p) (π q) ↔ g.Outranks p q := by
  rw [Outranks, h.prodPrec, h.prodPrec, Outranks]

theorem ties_iff (h : Reordered π g g') : g'.Ties (π p) (π q) ↔ g.Ties p q := by
  rw [Ties, h.prodPrec, h.prodPrec, Ties]

end Grammar.Reordered

/-! ### Cells -/

/-- The offers `made'` are the offers `made` with new numbers. -/
structure Offer.Renumbered (prods states : Nat → Nat) (made made' : Offer → Prop) : Prop where
  renumber : ∀ {o : Offer}, made o → made' (o.renumber prods states)
  exists_renumber : ∀ {o' : Offer}, made' o' → ∃ o, made o ∧ o.renumber prods states = o'

namespace Offer.Renumbered

variable {prods states : Nat → Nat} {made made' : Offer → Prop} {n : Nat}

theorem exists_shift (h : Renumbered prods states made made') (hn : made' (.shift n)) :
    ∃ next, made (.shift next) ∧ states next = n := by
  obtain ⟨o, ho, heq⟩ := h.exists_renumber hn
  cases o with
  | shift next => exact ⟨next, ho, Offer.shift.inj heq⟩
  | reduce _ => exact absurd heq (by simp [Offer.renumber])
  | accept => exact absurd heq (by simp [Offer.renumber])

theorem exists_reduce (h : Renumbered prods states made made') (hn : made' (.reduce n)) :
    ∃ prod, made (.reduce prod) ∧ prods prod = n := by
  obtain ⟨o, ho, heq⟩ := h.exists_renumber hn
  cases o with
  | shift _ => exact absurd heq (by simp [Offer.renumber])
  | reduce prod => exact ⟨prod, ho, Offer.reduce.inj heq⟩
  | accept => exact absurd heq (by simp [Offer.renumber])

theorem accept (h : Renumbered prods states made made') (haccept : made' .accept) :
    made .accept := by
  obtain ⟨o, ho, heq⟩ := h.exists_renumber haccept
  cases o with
  | shift _ => exact absurd heq (by simp [Offer.renumber])
  | reduce _ => exact absurd heq (by simp [Offer.renumber])
  | accept => exact ho

end Offer.Renumbered

namespace Cell

variable {g g' : Grammar} {π : Equiv.Perm Nat} {states : Nat → Nat} {made made' : Offer → Prop}
  {t prod : Nat} {cell : Cell}

theorem Foremost.renumber (h : g.Reordered π g') (hmade : Offer.Renumbered π states made made')
    (hprod : Foremost g made prod) : Foremost g' made' (π prod) := by
  refine ⟨hmade.renumber hprod.1, fun other hother hne => ?_⟩
  obtain ⟨q, hq, rfl⟩ := hmade.exists_reduce hother
  exact h.outranks_iff.2 (hprod.2 q hq fun heq => hne (congrArg π heq))

/-- A cell is still settled by offers with new numbers. -/
theorem Settled.renumber (h : g.Reordered π g') (hmade : Offer.Renumbered π states made made')
    (hcell : cell.Settled g t made) : (cell.renumber π states).Settled g' t made' := by
  cases cell with
  | vacant =>
    intro o' ho'
    obtain ⟨o, ho, -⟩ := hmade.exists_renumber ho'
    exact hcell o ho
  | shift next =>
    refine ⟨hmade.renumber hcell.1, fun haccept => hcell.2.1 (hmade.accept haccept), ?_⟩
    intro prod' hprod'
    obtain ⟨prod, hprod, rfl⟩ := hmade.exists_reduce hprod'
    rw [h.preference, hcell.2.2 prod hprod]
  | reduce prod =>
    refine ⟨hcell.1.renumber h hmade, fun haccept => hcell.2.1 (hmade.accept haccept), ?_⟩
    intro next' hnext'
    obtain ⟨next, hnext, -⟩ := hmade.exists_shift hnext'
    rw [h.preference, hcell.2.2 next hnext]
  | accept =>
    refine ⟨hmade.renumber hcell.1, fun o' ho' => ?_⟩
    obtain ⟨o, ho, rfl⟩ := hmade.exists_renumber ho'
    rw [hcell.2 o ho, Offer.renumber]
  | emptied next prod =>
    exact ⟨hmade.renumber hcell.1, hcell.2.1.renumber h hmade,
      fun haccept => hcell.2.2.1 (hmade.accept haccept), (h.preference prod t).trans hcell.2.2.2⟩

/-- Precedence still chooses between offers with new numbers. -/
theorem Comparable.renumber (h : g.Reordered π g') (hmade : Offer.Renumbered π states made made')
    (hcomparable : Comparable g t made) : Comparable g' t made' where
  reduce hp' hq' hne := by
    obtain ⟨p, hp, rfl⟩ := hmade.exists_reduce hp'
    obtain ⟨q, hq, rfl⟩ := hmade.exists_reduce hq'
    exact (hcomparable.reduce hp hq fun heq => hne (congrArg π heq)).imp h.outranks_iff.2
      h.outranks_iff.2
  chosen hnext' hprod' := by
    obtain ⟨next, hnext, -⟩ := hmade.exists_shift hnext'
    obtain ⟨prod, hprod, rfl⟩ := hmade.exists_reduce hprod'
    rw [h.preference]
    exact hcomparable.chosen hnext hprod
  accept haccept ho' := by
    obtain ⟨o, ho, rfl⟩ := hmade.exists_renumber ho'
    rw [hcomparable.accept (hmade.accept haccept) ho, Offer.renumber]

/-- A tie that offers with new numbers hide was hidden before. -/
theorem HidesTie.of_renumbered (h : g.Reordered π g') (hmade : Offer.Renumbered π states made made')
    (htie : HidesTie g' t made') : HidesTie g t made := by
  obtain ⟨p', q', hne, hp', hq', hties, hbetter⟩ := htie
  obtain ⟨p, hp, rfl⟩ := hmade.exists_reduce hp'
  obtain ⟨q, hq, rfl⟩ := hmade.exists_reduce hq'
  refine ⟨p, q, fun heq => hne (congrArg π heq), hp, hq, h.ties_iff.1 hties, ?_⟩
  rcases hbetter with ⟨r', hr', hrank⟩ | ⟨next', hnext', hchoice⟩
  · obtain ⟨r, hr, rfl⟩ := hmade.exists_reduce hr'
    exact Or.inl ⟨r, hr, h.outranks_iff.1 hrank⟩
  · obtain ⟨next, hnext, -⟩ := hmade.exists_shift hnext'
    exact Or.inr ⟨next, hnext, (h.preference p t).symm.trans hchoice⟩

end Cell

/-! ### States -/

namespace Tables

variable {g g' : Grammar} {π : Equiv.Perm Nat} {ρ : Nat → Nat} {γ δ : List Symbol} {i j a : Nat}
  {s s' : State} {o : Offer} {t t' : Tables}

/-- Symbols lead to the same state exactly if they lead to the same kernel. -/
theorem walk_eq_iff (hg : g.WellFormed) (hγ : walk (statesOf g) 0 γ = some i) :
    walk (statesOf g) 0 δ = some i ↔
      Canonical.kernelAfter g.augment δ = Canonical.kernelAfter g.augment γ := by
  have hfin := finished_statesOf hg
  have hG := Grammar.isAugmented_augment hg
  obtain ⟨s, hs, hcores⟩ := hfin.coreSet_of_walk hG hγ
  rw [hfin.walk_eq_some_iff hG]
  constructor
  · rintro ⟨s', hs', hcores'⟩
    obtain rfl : s = s' := Option.some.inj (hs.symm.trans hs')
    exact hcores'.symm.trans hcores
  · intro heq
    exact ⟨s, hs, hcores.trans heq.symm⟩

/-- The productions of a grammar stand in another order, and its states have the numbers that `ρ` gives
them: the same symbols lead there. -/
structure Renumbered (π : Equiv.Perm Nat) (ρ : Nat → Nat) (g g' : Grammar) : Prop where
  reordered : g.Reordered π g'
  wellFormed : g.WellFormed
  wellFormed' : g'.WellFormed
  walk_eq_map : ∀ γ, walk (statesOf g') 0 γ = (walk (statesOf g) 0 γ).map ρ

/-- Every state has a number in the other automaton. -/
theorem exists_renumbered (h : g.Reordered π g') (hg : g.WellFormed) (hg' : g'.WellFormed) :
    ∃ ρ, Renumbered π ρ g g' := by
  have hG := Grammar.isAugmented_augment hg
  have hG' := Grammar.isAugmented_augment hg'
  have hstate : ∀ i, ∃ j, ∀ γ, walk (statesOf g) 0 γ = some i →
      walk (statesOf g') 0 γ = some j := by
    intro i
    by_cases hi : ∃ γ, walk (statesOf g) 0 γ = some i
    · obtain ⟨γ, hγ⟩ := hi
      obtain ⟨j, hj⟩ := (finished_statesOf hg').exists_walk hG'
        (h.nonempty_kernelAfter (kernelAfter_nonempty hg hγ))
      exact ⟨j, fun δ hδ => (walk_eq_iff hg' hj).2 (h.kernelAfter_eq ((walk_eq_iff hg hγ).1 hδ))⟩
    · exact ⟨0, fun γ hγ => absurd ⟨γ, hγ⟩ hi⟩
  choose ρ hρ using hstate
  refine ⟨ρ, h, hg, hg', fun γ => ?_⟩
  cases hγ : walk (statesOf g) 0 γ with
  | some i => exact hρ i γ hγ
  | none =>
    cases hγ' : walk (statesOf g') 0 γ with
    | none => rfl
    | some j =>
      obtain ⟨i, hi⟩ := (finished_statesOf hg).exists_walk hG
        (h.symm.nonempty_kernelAfter (kernelAfter_nonempty hg' hγ'))
      exact absurd (hγ.symm.trans hi) (by simp)

namespace Renumbered

theorem walk_eq_some (h : Renumbered π ρ g g') (hγ : walk (statesOf g) 0 γ = some i) :
    walk (statesOf g') 0 γ = some (ρ i) := by
  rw [h.walk_eq_map, hγ, Option.map_some]

/-- The numbers in the two automata belong to each other. -/
theorem exists_inverse (h : Renumbered π ρ g g') : ∃ ρ', Renumbered π.symm ρ' g' g ∧
    (∀ {i s}, (statesOf g)[i]? = some s → ρ' (ρ i) = i) ∧
    ∀ {j s'}, (statesOf g')[j]? = some s' → ρ (ρ' j) = j := by
  obtain ⟨ρ', h'⟩ := exists_renumbered h.reordered.symm h.wellFormed' h.wellFormed
  refine ⟨ρ', h', fun hs => ?_, fun hs' => ?_⟩
  · obtain ⟨γ, hγ⟩ := exists_walk_of_state h.wellFormed hs
    exact Option.some.inj ((h'.walk_eq_some (h.walk_eq_some hγ)).symm.trans hγ)
  · obtain ⟨γ, hγ⟩ := exists_walk_of_state h.wellFormed' hs'
    exact Option.some.inj ((h.walk_eq_some (h'.walk_eq_some hγ)).symm.trans hγ)

theorem exists_state (h : Renumbered π ρ g g') (hs : (statesOf g)[i]? = some s) :
    ∃ s', (statesOf g')[ρ i]? = some s' := by
  obtain ⟨γ, hγ⟩ := exists_walk_of_state h.wellFormed hs
  exact Tables.exists_state h.wellFormed' (h.walk_eq_some hγ)

/-- Every state of the other automaton has been given its number. -/
theorem exists_preimage (h : Renumbered π ρ g g') (hs' : (statesOf g')[j]? = some s') :
    ∃ i s, ρ i = j ∧ (statesOf g)[i]? = some s := by
  obtain ⟨ρ', h', -, hback⟩ := h.exists_inverse
  obtain ⟨s, hs⟩ := h'.exists_state hs'
  exact ⟨ρ' j, s, hback hs', hs⟩

theorem bijOn (h : Renumbered π ρ g g') :
    Set.BijOn ρ (Set.Iio (statesOf g).size) (Set.Iio (statesOf g').size) := by
  obtain ⟨ρ', -, hback, -⟩ := h.exists_inverse
  refine ⟨fun i hi => ?_, fun i hi i' hi' heq => ?_, fun j hj => ?_⟩
  · obtain ⟨s', hs'⟩ := h.exists_state (Array.getElem?_eq_getElem hi)
    exact (Array.getElem?_eq_some_iff.1 hs').1
  · rw [← hback (Array.getElem?_eq_getElem hi), heq, hback (Array.getElem?_eq_getElem hi')]
  · obtain ⟨i, s, rfl, hs⟩ := h.exists_preimage (Array.getElem?_eq_getElem hj)
    exact ⟨i, (Array.getElem?_eq_some_iff.1 hs).1, rfl⟩

/-- The moves lead to the states with the new numbers. -/
theorem step_eq (h : Renumbered π ρ g g') (hs : (statesOf g)[i]? = some s) (x : Symbol) :
    Collection.step (statesOf g') (ρ i) x = (Collection.step (statesOf g) i x).map ρ := by
  obtain ⟨γ, hγ⟩ := exists_walk_of_state h.wellFormed hs
  have hnext := h.walk_eq_map (γ ++ [x])
  rwa [Collection.walk_append_singleton, Collection.walk_append_singleton, hγ, h.walk_eq_some hγ,
    Option.bind_some, Option.bind_some] at hnext

/-- A state makes the same offers, with new numbers. -/
theorem mem_offers (h : Renumbered π ρ g g') (hs : (statesOf g)[i]? = some s)
    (hs' : (statesOf g')[ρ i]? = some s') (ho : (a, o) ∈ offers g.augment s) :
    (a, o.renumber π ρ) ∈ offers g'.augment s' := by
  have hg := h.wellFormed
  have hg' := h.wellFormed'
  have hr := h.reordered
  obtain ⟨γ, hγ⟩ := exists_walk_of_state hg hs
  have hγ' := h.walk_eq_some hγ
  cases o with
  | shift j =>
    obtain ⟨hj, ha, c, hc, hnext⟩ := shift_offer_spec hg hγ hs ho
    obtain ⟨-, j', ho'⟩ := exists_shift_offer hg' hγ' hs' (hr.closure_renumber hc)
      ((hr.augment.next?_renumber c).trans hnext) (hr.eof ▸ ha)
    obtain ⟨hj', -⟩ := shift_offer_spec hg' hγ' hs' ho'
    obtain rfl : ρ j = j' := Option.some.inj ((h.walk_eq_some hj).symm.trans hj')
    exact ho'
  | reduce p =>
    obtain ⟨hp, -, δ, hδ, hsees⟩ := reduce_offer_spec hg hγ hs ho
    have hsees' := hr.sees_renumber hsees
    rw [Core.renumber, ← hr.rhs] at hsees'
    exact (reduce_offer_of_sees hg' (h.walk_eq_some hδ) hs' (hr.lt_iff.2 hp) hsees').2
  | accept =>
    obtain ⟨rfl, rfl⟩ := accept_offer_spec hg hγ hs ho
    rw [← hr.start] at hγ'
    rw [← hr.eof]
    exact accept_offer_of_start hg' hγ' hs'

/-- The offers of a state are those of the state before, with new numbers. -/
theorem offers (h : Renumbered π ρ g g') (hs : (statesOf g)[i]? = some s)
    (hs' : (statesOf g')[ρ i]? = some s') (a : Nat) :
    Offer.Renumbered π ρ (fun o => (a, o) ∈ Tables.offers g.augment s)
      fun o => (a, o) ∈ Tables.offers g'.augment s' where
  renumber ho := h.mem_offers hs hs' ho
  exists_renumber {o'} ho' := by
    obtain ⟨ρ', h', hback, -⟩ := h.exists_inverse
    have ho := h'.mem_offers hs' ((congrArg ((statesOf g)[·]?) (hback hs)).trans hs) ho'
    have hagain := h.mem_offers hs hs' ho
    refine ⟨_, ho, ?_⟩
    cases o' with
    | shift next => exact congrArg _ (offers_shift_unique hagain ho')
    | reduce p => simp [Offer.renumber]
    | accept => rfl

end Renumbered

/-! ### Tables -/

/-- In some state two productions of one level are offered on a terminal, beside something that
precedence prefers to both. -/
def HidesTie (g : Grammar) : Prop :=
  ∃ (i a : Nat) (s : State), (statesOf g)[i]? = some s ∧
    Cell.HidesTie g.augment a fun o => (a, o) ∈ offers g.augment s

namespace Renumbered

theorem hidesTie (h : Renumbered π ρ g g') (htie : HidesTie g') : HidesTie g := by
  obtain ⟨j, a, s', hs', htie⟩ := htie
  obtain ⟨i, s, rfl, hs⟩ := h.exists_preimage hs'
  exact ⟨i, a, s, hs, htie.of_renumbered h.reordered.augment (h.offers hs hs' a)⟩

/-- Without hidden ties, the tables are built in the other order as well. -/
theorem exists_build (h : Renumbered π ρ g g') (htie : ¬ HidesTie g) (ht : build g = .ok t) :
    ∃ t', build g' = .ok t' := by
  refine Tables.exists_build fun hs' => (regular_offers h.wellFormed' hs').exists_fill fun a => ?_
  obtain ⟨i, s, rfl, hs⟩ := h.exists_preimage hs'
  obtain ⟨cells, -, hrow⟩ := (made_of_build ht).rows hs
  have hsettled := hrow.settled (regular_offers h.wellFormed hs) a
  have hcomparable := hsettled.comparable fun hhidden => htie ⟨i, a, s, hs, hhidden⟩
  exact hcomparable.renumber h.reordered.augment (h.offers hs hs' a)

/-- The actions are the same, with new numbers. -/
theorem actionAt_eq (h : Renumbered π ρ g g') (ht : Made g t) (ht' : Made g' t')
    (hs : (statesOf g)[i]? = some s) (a : Nat) :
    t'.actionAt (ρ i) a = (t.actionAt i a).renumber π ρ := by
  obtain ⟨s', hs'⟩ := h.exists_state hs
  obtain ⟨cells, hcells, hrow⟩ := ht.rows hs
  obtain ⟨cells', hcells', hrow'⟩ := ht'.rows hs'
  have hregular' := regular_offers h.wellFormed' hs'
  have hsettled := hrow.settled (regular_offers h.wellFormed hs) a
  have hsame : (cellAt cells a).renumber π ρ = cellAt cells' a :=
    (hsettled.renumber h.reordered.augment (h.offers hs hs' a)).unique
      (hrow'.settled hregular' a) (hregular'.shift a)
  rw [actionAt_of_cells hcells, actionAt_of_cells hcells', ← hsame, Cell.action_renumber]

theorem gotoAt_eq (h : Renumbered π ρ g g') (ht : Made g t) (ht' : Made g' t')
    (hs : (statesOf g)[i]? = some s) (n : Nat) : t'.gotoAt (ρ i) n = (t.gotoAt i n).map ρ := by
  rw [ht'.gotoAt_eq, ht.gotoAt_eq, h.reordered.augment.size_nts]
  split
  · exact h.step_eq hs _
  · rfl

theorem prods_eq (h : Renumbered π ρ g g') (ht : Made g t) (ht' : Made g' t') (p : Nat) :
    t'.prods[π p]? = t.prods[p]? := by
  rw [ht'.prods, ht.prods, Array.getElem?_map, Array.getElem?_map, h.reordered.augment.prods]

end Renumbered

/-- What a grammar with its productions in another order has in its tables. The tables are built for
the one exactly if they are built for the other, unless a tie is hidden. If both are built, they say
the same with new numbers: there is a one-to-one correspondence of the states, with which the first
states, the actions, the states after nonterminals and the productions agree. -/
theorem build_reordered (h : g.Reordered π g') (hg : g.WellFormed) (hg' : g'.WellFormed) :
    (¬ HidesTie g → ((∃ t, build g = .ok t) ↔ ∃ t', build g' = .ok t')) ∧
    ∀ t t', build g = .ok t → build g' = .ok t' → ∃ ρ : Nat → Nat,
      Set.BijOn ρ (Set.Iio t.size) (Set.Iio t'.size) ∧ ρ t.start = t'.start ∧
      (∀ i < t.size, ∀ a, t'.actionAt (ρ i) a = (t.actionAt i a).renumber π ρ) ∧
      (∀ i < t.size, ∀ n, t'.gotoAt (ρ i) n = (t.gotoAt i n).map ρ) ∧
      (∀ p, t'.prods[π p]? = t.prods[p]?) ∧ t'.eof = t.eof := by
  obtain ⟨ρ, hρ⟩ := exists_renumbered h hg hg'
  obtain ⟨ρ', hρ', -⟩ := hρ.exists_inverse
  refine ⟨fun htie => ⟨?_, ?_⟩, fun t t' ht ht' => ?_⟩
  · rintro ⟨t, ht⟩
    exact hρ.exists_build htie ht
  · rintro ⟨t', ht'⟩
    exact hρ'.exists_build (fun htie' => htie (hρ.hidesTie htie')) ht'
  · have hmade := made_of_build ht
    have hmade' := made_of_build ht'
    have hstate : ∀ i < t.size, ∃ s, (statesOf g)[i]? = some s := fun i hi =>
      ⟨_, Array.getElem?_eq_getElem (Nat.lt_of_lt_of_eq hi hmade.size)⟩
    refine ⟨ρ, ?_, ?_, fun i hi a => ?_, fun i hi n => ?_, hρ.prods_eq hmade hmade', ?_⟩
    · rw [size, size, hmade.size, hmade'.size]
      exact hρ.bijOn
    · rw [hmade.start, hmade'.start]
      exact Option.some.inj (hρ.walk_eq_some (γ := []) rfl).symm
    · obtain ⟨s, hs⟩ := hstate i hi
      exact hρ.actionAt_eq hmade hmade' hs a
    · obtain ⟨s, hs⟩ := hstate i hi
      exact hρ.gotoAt_eq hmade hmade' hs n
    · rw [hmade'.eof, hmade.eof, h.eof]

end Tables

/-! ### Two grammars -/

/-- The symbols and groups of sums and products: `E`, a letter, `+` and `*`, which binds tighter. -/
def Draft.sums : Draft :=
  let d := (Draft.empty.terminal "n" (.char 'n') false).1
  let d := (d.terminal "+" (.char '+') false).1
  let d := (d.terminal "*" (.char '*') false).1
  let d := (d.nonterminal "E").1
  ((d.precGroup .left [1]).1.precGroup .left [2]).1

/-- The productions `E = E + E`, `E = E * E` and `E = n`. -/
def Production.sums : List Production :=
  [⟨0, [.nonterminal 0, .terminal 1, .nonterminal 0], none⟩,
    ⟨0, [.nonterminal 0, .terminal 2, .nonterminal 0], none⟩, ⟨0, [.terminal 0], none⟩]

theorem Draft.declared_sums : Draft.sums.Declared :=
  .precGroup (.precGroup (.nonterminal (.terminal (.terminal (.terminal .empty _ _ _) _ _ _) _ _ _) _)
    _ _) _ _

/-- The symbols and groups of three rivals `A`, `B` and `C`. -/
def Draft.rivals : Draft :=
  let d := (Draft.empty.terminal "x" (.char 'x') false).1
  let d := (d.terminal "a" (.char 'a') false).1
  let d := (((d.nonterminal "S").1.nonterminal "A").1.nonterminal "B").1
  (((d.nonterminal "C").1.precGroup .left []).1.precGroup .left []).1

/-- The productions `S = A x`, `S = B x` and `S = C x`, and then `A = a`, `B = a` and `C = a` in the given
order, each with the group that is given. -/
def Production.rivals (order : List (Nat × Nat)) : List Production :=
  [⟨0, [.nonterminal 1, .terminal 0], none⟩, ⟨0, [.nonterminal 2, .terminal 0], none⟩,
    ⟨0, [.nonterminal 3, .terminal 0], none⟩] ++
    order.map fun nt => ⟨nt.1, [.terminal 1], some nt.2⟩

theorem Draft.declared_rivals : Draft.rivals.Declared :=
  .precGroup (.precGroup (.nonterminal (.nonterminal (.nonterminal (.nonterminal
    (.terminal (.terminal .empty _ _ _) _ _ _) _) _) _) _) _ _) _ _

theorem Grammar.lt_of_prodPrec {g : Grammar} {p : Nat} {group : PrecGroup}
    (h : g.prodPrec p = some group) : p < g.prods.size := by
  by_contra hge
  rw [prodPrec, Array.getElem?_eq_none (Nat.le_of_not_lt hge)] at h
  exact absurd h (by simp)

namespace Tables

/-- Between `+` and `*` precedence chooses, and the tables are the same if the productions are declared
in the reverse order. -/
theorem build_reordered_sums : ∃ (π : Equiv.Perm Nat) (g g' : Grammar) (t t' : Tables),
    g.Reordered π g' ∧ g.WellFormed ∧ g'.WellFormed ∧ g.rhs 2 = [.terminal 0] ∧
    g'.rhs 0 = [.terminal 0] ∧ ¬ HidesTie g ∧ build g = .ok t ∧ t.resolutions ≠ [] ∧
    build g' = .ok t' ∧ ∃ ρ : Nat → Nat,
      Set.BijOn ρ (Set.Iio t.size) (Set.Iio t'.size) ∧ ρ t.start = t'.start ∧
      (∀ i < t.size, ∀ a, t'.actionAt (ρ i) a = (t.actionAt i a).renumber π ρ) ∧
      (∀ i < t.size, ∀ n, t'.gotoAt (ρ i) n = (t.gotoAt i n).map ρ) ∧
      (∀ p, t'.prods[π p]? = t.prods[p]?) ∧ t'.eof = t.eof := by
  have hd := Draft.declared_sums
  obtain ⟨g, hbuild, hrhs, hties, hsome⟩ := exists_ok
    (x := (Draft.sums.produceAll Production.sums).build 0)
    (P := fun g => g.rhs 2 = [.terminal 0] ∧
      (∀ p < g.augment.prods.size, ∀ q < g.augment.prods.size, g.augment.Ties p q → p = q) ∧
      ((build g).toOption.map fun t => decide (t.resolutions ≠ [])) = some true) (by decide +kernel)
  obtain ⟨g', hbuild', hrhs'⟩ := exists_ok
    (x := (Draft.sums.produceAll Production.sums.reverse).build 0)
    (P := fun g => g.rhs 0 = [.terminal 0]) (by decide +kernel)
  obtain ⟨π, hπ⟩ :=
    hd.consistent.exists_reordered rfl Production.sums.reverse_perm.symm hbuild hbuild'
  have hg := (hd.produceAll _).consistent.wellFormed hbuild
  have hg' := (hd.produceAll _).consistent.wellFormed hbuild'
  have htie : ¬ HidesTie g := by
    rintro ⟨i, a, s, -, p, q, hne, -, -, hpq, -⟩
    have ⟨_, _, hp, hq, _⟩ := hpq
    exact hne (hties p (Grammar.lt_of_prodPrec hp) q (Grammar.lt_of_prodPrec hq) hpq)
  obtain ⟨t, ht, hresolutions⟩ := exists_ok hsome
  obtain ⟨t', ht'⟩ := ((build_reordered hπ hg hg').1 htie).1 ⟨t, ht⟩
  exact ⟨π, g, g', t, t', hπ, hg, hg', hrhs, hrhs', htie, ht, hresolutions, ht',
    (build_reordered hπ hg hg').2 t t' ht ht'⟩

/-- After `a`, where `x` comes, the second of two productions of one level clashes with the first, unless
the production that is preferred to both stands between them. -/
theorem order_decides : ∃ (π : Equiv.Perm Nat) (g g' : Grammar), g.Reordered π g' ∧ g.WellFormed ∧
    g'.WellFormed ∧ (∃ t, build g = .ok t) ∧ ¬ ∃ t', build g' = .ok t' := by
  have hd := Draft.declared_rivals
  obtain ⟨g, hg, ht⟩ := exists_ok
    (x := (Draft.rivals.produceAll (Production.rivals [(1, 0), (3, 1), (2, 0)])).build 0)
    (P := fun g => (build g).toOption.isSome) (by decide +kernel)
  obtain ⟨g', hg', ht'⟩ := exists_ok
    (x := (Draft.rivals.produceAll (Production.rivals [(1, 0), (2, 0), (3, 1)])).build 0)
    (P := fun g => (build g).toOption = none) (by decide +kernel)
  obtain ⟨π, hπ⟩ := hd.consistent.exists_reordered rfl (by decide) hg hg'
  refine ⟨π, g, g', hπ, (hd.produceAll _).consistent.wellFormed hg,
    (hd.produceAll _).consistent.wellFormed hg', ?_, ?_⟩
  · obtain ⟨t, ht⟩ := Option.isSome_iff_exists.1 ht
    exact ⟨t, eq_ok_of_toOption ht⟩
  · rintro ⟨t', h⟩
    rw [h] at ht'
    exact absurd ht' (by simp [Except.toOption])

end Tables

end ShiftReduce
