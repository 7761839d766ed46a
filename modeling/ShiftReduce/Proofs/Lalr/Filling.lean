import ShiftReduce.Proofs.Lalr.Actions
import ShiftReduce.Proofs.Lalr.Settling

/-!
# Rows that can be filled

Offers are orderly (`Tables.Orderly`) if on each terminal there is at most one state to shift to and at
most one production to reduce by, precedence chooses between the two where they meet, and nothing else
is offered where the input is accepted. Orderly offers do not clash, whatever their order, and each cell
shows what precedence makes of those made to it (`Cell.Shows`). If the rows of all states can be filled,
the tables are built (`Tables.exists_build`).

That a state shifts to one state only and makes no other offer twice holds in every grammar
(`Tables.regular_offers`).
-/

namespace ShiftReduce

open Collection (walk)

namespace Cell

variable {g : Grammar} {t : Nat} {made : Offer → Prop}

/-- The cell shows what precedence makes of the offers made to it. -/
def Shows (g : Grammar) (t : Nat) (made : Offer → Prop) : Cell → Prop
  | .vacant => ∀ o, ¬ made o
  | .shift next =>
    made (.shift next) ∧ ∀ prod, made (.reduce prod) → preference g prod t = some .shift
  | .reduce prod =>
    made (.reduce prod) ∧ ∀ next, made (.shift next) → preference g prod t = some .reduce
  | .accept => made .accept
  | .emptied next prod =>
    made (.shift next) ∧ made (.reduce prod) ∧ preference g prod t = some .neither

/-- Offers on one terminal that do not clash. -/
structure Peaceful (g : Grammar) (t : Nat) (made : Offer → Prop) : Prop where
  shift : ∀ {next next' : Nat}, made (.shift next) → made (.shift next') → next = next'
  reduce : ∀ {prod prod' : Nat}, made (.reduce prod) → made (.reduce prod') → prod = prod'
  chosen : ∀ {next prod : Nat}, made (.shift next) → made (.reduce prod) →
    ∃ choice, preference g prod t = some choice
  accept : ∀ {o : Offer}, made .accept → made o → o = .accept

theorem Peaceful.comparable (h : Peaceful g t made) : Comparable g t made where
  reduce hp hq hne := absurd (h.reduce hp hq) hne
  chosen := h.chosen
  accept := h.accept

theorem Settled.shows {cell : Cell} (h : cell.Settled g t made) : cell.Shows g t made := by
  cases cell with
  | vacant => exact h
  | shift next => exact ⟨h.1, h.2.2⟩
  | reduce prod => exact ⟨h.1.1, h.2.2⟩
  | accept => exact h.1
  | emptied next prod => exact ⟨h.1, h.2.1.1, h.2.2.2⟩

/-- The cell of a shift that no reduction stands against. -/
theorem Shows.action_of_shift {cell : Cell} (h : cell.Shows g t made) (hpeace : Peaceful g t made)
    {next : Nat} (hmade : made (.shift next))
    (hchosen : ∀ prod, made (.reduce prod) → preference g prod t = some .shift) :
    cell.action = .shift next := by
  cases cell with
  | vacant => exact absurd hmade (h _)
  | shift old => rw [Cell.action, hpeace.shift h.1 hmade]
  | reduce prod => exact absurd ((hchosen prod h.1).symm.trans (h.2 next hmade)) (by simp)
  | accept => exact absurd (hpeace.accept h hmade) (by simp)
  | emptied old prod => exact absurd ((hchosen prod h.2.1).symm.trans h.2.2) (by simp)

/-- The cell of a reduction that no shift stands against. -/
theorem Shows.action_of_reduce {cell : Cell} (h : cell.Shows g t made) (hpeace : Peaceful g t made)
    {prod : Nat} (hmade : made (.reduce prod))
    (hchosen : ∀ next, made (.shift next) → preference g prod t = some .reduce) :
    cell.action = .reduce prod := by
  cases cell with
  | vacant => exact absurd hmade (h _)
  | shift next => exact absurd ((h.2 prod hmade).symm.trans (hchosen next h.1)) (by simp)
  | reduce old => rw [Cell.action, hpeace.reduce h.1 hmade]
  | accept => exact absurd (hpeace.accept h hmade) (by simp)
  | emptied next old =>
    obtain rfl := hpeace.reduce h.2.1 hmade
    exact absurd ((hchosen next h.1).symm.trans h.2.2) (by simp)

theorem Shows.action_of_accept {cell : Cell} (h : cell.Shows g t made) (hpeace : Peaceful g t made)
    (hmade : made .accept) : cell.action = .accept := by
  cases cell with
  | vacant => exact absurd hmade (h _)
  | shift _ => exact absurd (hpeace.accept hmade h.1) (by simp)
  | reduce _ => exact absurd (hpeace.accept hmade h.1) (by simp)
  | accept => rfl
  | emptied _ _ => exact absurd (hpeace.accept hmade h.1) (by simp)

theorem Shows.of_action_shift {cell : Cell} (h : cell.Shows g t made) {next : Nat}
    (haction : cell.action = .shift next) :
    made (.shift next) ∧ ∀ prod, made (.reduce prod) → preference g prod t = some .shift := by
  cases cell with
  | shift old =>
    obtain rfl : old = next := Action.shift.inj haction
    exact h
  | vacant => exact absurd haction (by simp [Cell.action])
  | reduce _ => exact absurd haction (by simp [Cell.action])
  | accept => exact absurd haction (by simp [Cell.action])
  | emptied _ _ => exact absurd haction (by simp [Cell.action])

theorem Shows.of_action_reduce {cell : Cell} (h : cell.Shows g t made) {prod : Nat}
    (haction : cell.action = .reduce prod) :
    made (.reduce prod) ∧ ∀ next, made (.shift next) → preference g prod t = some .reduce := by
  cases cell with
  | reduce old =>
    obtain rfl : old = prod := Action.reduce.inj haction
    exact h
  | vacant => exact absurd haction (by simp [Cell.action])
  | shift _ => exact absurd haction (by simp [Cell.action])
  | accept => exact absurd haction (by simp [Cell.action])
  | emptied _ _ => exact absurd haction (by simp [Cell.action])

end Cell

namespace Tables

variable {g : Grammar}

/-- Offers that do not clash: on each terminal they are peaceful, each terminal is one of the grammar,
and none but a shift is made twice. -/
structure Orderly (g : Grammar) (os : List (Nat × Offer)) : Prop where
  peaceful : ∀ t, Cell.Peaceful g t fun o => (t, o) ∈ os
  below : ∀ o ∈ os, o.1 < g.terminals.size
  nodup : (os.filter fun o => !o.2.isShift).Nodup

theorem Orderly.regular {os : List (Nat × Offer)} (h : Orderly g os) : Regular g os where
  shift t _ _ hnext hold := (h.peaceful t).shift hold hnext
  below := h.below
  nodup := h.nodup

theorem Orderly.exists_fill {os : List (Nat × Offer)} (h : Orderly g os) (i : Nat)
    (before : List Resolution) : ∃ row, fillCells g i os ⟨vacantCells g, before⟩ = .ok row :=
  h.regular.exists_fill (fun t => (h.peaceful t).comparable) i before

/-- The row of orderly offers shows what precedence makes of them. -/
theorem RowFor.shows {s : State} {settled : Prop} {cells : Array Cell}
    (h : RowFor g s settled cells) (horderly : Orderly g (offers g s)) (t : Nat) :
    (cellAt cells t).Shows g t fun o => (t, o) ∈ offers g s :=
  (h.settled horderly.regular t).shows

theorem exists_fillRows {ss : List State} (h : ∀ s ∈ ss, ∀ (i : Nat) (before : List Resolution),
    ∃ row, fillCells g i (offers g s) ⟨vacantCells g, before⟩ = .ok row) (filled : Filled) :
    ∃ filled', fillRows g ss filled = .ok filled' := by
  induction ss generalizing filled with
  | nil => exact ⟨filled, rfl⟩
  | cons s ss ih =>
    obtain ⟨hs, hss⟩ := List.forall_mem_cons.1 h
    obtain ⟨row, hrow⟩ := hs filled.rows.size filled.resolutions
    rw [vacantCells] at hrow
    rw [fillRows, hrow]
    exact ih hss _

/-- If the offers of no state clash, the tables are built. -/
theorem exists_build (h : ∀ {i : Nat} {s : State}, (statesOf g)[i]? = some s →
    ∀ (k : Nat) (before : List Resolution), ∃ row,
      fillCells g.augment k (offers g.augment s) ⟨vacantCells g.augment, before⟩ = .ok row) :
    ∃ t, build g = .ok t := by
  have hall : ∀ s ∈ (statesOf g).toList, ∀ (k : Nat) (before : List Resolution), ∃ row,
      fillCells g.augment k (offers g.augment s) ⟨vacantCells g.augment, before⟩ = .ok row := by
    intro s hs
    obtain ⟨i, hi⟩ := List.getElem?_of_mem hs
    exact h (Array.getElem?_toList.symm.trans hi)
  obtain ⟨filled, hfilled⟩ := exists_fillRows hall ⟨#[], []⟩
  refine ⟨ofFilled g.augment (statesOf g) filled, ?_⟩
  rw [statesOf] at hfilled
  simp only [build, construct, hfilled]
  rfl

/-! ### The offers of a state -/

variable {i a : Nat} {s : State}

/-- Every state is one that some symbols lead to. -/
theorem exists_walk_of_state (hg : g.WellFormed) (hs : (statesOf g)[i]? = some s) :
    ∃ γ, walk (statesOf g) 0 γ = some i := by
  have hfin := finished_statesOf hg
  obtain ⟨γ, hγ⟩ := (hfin.genuine hs).reached
  exact ⟨γ, (hfin.walk_eq_some_iff (Grammar.isAugmented_augment hg)).2 ⟨s, hs, hγ.symm⟩⟩

theorem offers_shift_unique {j j' : Nat} (h : (a, .shift j) ∈ offers g s)
    (h' : (a, .shift j') ∈ offers g s) : j = j' := by
  have hmove : ∀ {k : Nat}, (a, .shift k) ∈ offers g s → s.move? (.terminal a) = some k := by
    intro k hk
    obtain ⟨item, -, hk⟩ := mem_offers.1 hk
    rcases mem_offersOf.1 hk with ⟨-, -, heq⟩ | ⟨-, ⟨k', -, hmove, heq⟩ | ⟨-, -, heq⟩⟩
    · exact absurd heq (by simp)
    · rw [hmove, Offer.shift.inj heq]
    · exact absurd heq (by simp)
  exact Option.some.inj ((hmove h).symm.trans (hmove h'))

/-- The terminals of the offers are those of the grammar. -/
theorem lt_of_mem_offers (hg : g.WellFormed) (hs : (statesOf g)[i]? = some s) {o : Offer}
    (ho : (a, o) ∈ offers g.augment s) : a < g.terminals.size := by
  have hG := Grammar.isAugmented_augment hg
  have hfin := finished_statesOf hg
  obtain ⟨item, hitem, ho⟩ := mem_offers.1 ho
  rcases mem_offersOf.1 ho with ⟨-, rfl, -⟩ | ⟨-, ⟨j, hnext, -, -⟩ | ⟨-, ha, -⟩⟩
  · exact hg.eof_lt
  · exact hG.terminal_lt _ a (Canonical.mem_rhs_of_next? hnext)
  · exact ((hfin.genuine hs).inside_items hG.toInRange hG.toListsOwn (hfin.settled hs).closed
      hitem).2 a ha

/-- An item offers nothing but a shift twice. -/
theorem nodup_offersOf (g : Grammar) (s : State) (item : Item) :
    ((offersOf g s item).filter fun o => !o.2.isShift).Nodup := by
  rw [offersOf]
  split
  · exact List.Nodup.filter _ (List.nodup_singleton _)
  · split
    · cases s.move? _ with
      | none => exact List.nodup_nil
      | some next => exact List.nodup_nil
    · exact List.nodup_nil
    · refine List.Nodup.filter _ (List.Nodup.map ?_ ?_)
      · intro t t' heq
        exact (Prod.mk.inj heq).1
      · exact (IdSet.pairwise_toList _).imp Nat.ne_of_lt

/-- The core of an item can be told from what the item offers, unless it is a shift. -/
theorem core_eq_of_mem_offersOf (hg : g.WellFormed) (hs : (statesOf g)[i]? = some s)
    {item item' : Item} (hitem : item ∈ s.items g.augment) (hitem' : item' ∈ s.items g.augment)
    {o : Offer} (ho : (a, o) ∈ offersOf g.augment s item) (ho' : (a, o) ∈ offersOf g.augment s item')
    (hshift : o.isShift = false) : item.core = item'.core := by
  obtain ⟨γ, hwalk⟩ := exists_walk_of_state hg hs
  have hdot : ∀ {item : Item}, item ∈ s.items g.augment → item.core.next? g.augment = none →
      item.core.dot = (g.augment.rhs item.core.prod).length := fun hitem hnext =>
    Canonical.dot_eq_of_next?_none ((closure_iff_exists_item hg hwalk hs).2 ⟨_, hitem, rfl⟩) hnext
  rcases mem_offersOf.1 ho with ⟨haccepts, -, rfl⟩ | ⟨-, ⟨j, -, -, rfl⟩ | ⟨hnext, -, rfl⟩⟩
  · rcases mem_offersOf.1 ho' with ⟨haccepts', -, -⟩ | ⟨-, ⟨j, -, -, heq⟩ | ⟨-, -, heq⟩⟩
    · obtain ⟨hprod, hone⟩ := Canonical.accepts_iff.1 haccepts
      obtain ⟨hprod', hone'⟩ := Canonical.accepts_iff.1 haccepts'
      calc item.core = ⟨g.augment.acceptProd, 1⟩ := by rw [← hprod, ← hone]
        _ = item'.core := by rw [← hprod', ← hone']
    · exact absurd heq (by simp)
    · exact absurd heq (by simp)
  · exact absurd hshift (by simp [Offer.isShift])
  · rcases mem_offersOf.1 ho' with ⟨-, -, heq⟩ | ⟨-, ⟨j, -, -, heq⟩ | ⟨hnext', -, heq⟩⟩
    · exact absurd heq (by simp)
    · exact absurd heq (by simp)
    · have hprod := Offer.reduce.inj heq
      calc item.core = ⟨item.core.prod, (g.augment.rhs item.core.prod).length⟩ := by
            rw [← hdot hitem hnext]
        _ = ⟨item'.core.prod, (g.augment.rhs item'.core.prod).length⟩ := by rw [hprod]
        _ = item'.core := by rw [← hdot hitem' hnext']

/-- A state makes no offer but a shift twice. -/
theorem nodup_offers (hg : g.WellFormed) (hs : (statesOf g)[i]? = some s) :
    ((offers g.augment s).filter fun o => !o.2.isShift).Nodup := by
  have hG := Grammar.isAugmented_augment hg
  have hfin := finished_statesOf hg
  have hcores := State.nodup_cores_items hG (hfin.settled hs).closed (hfin.genuine hs).toKernelFit
  rw [offers, List.filter_flatMap, List.nodup_flatMap]
  refine ⟨fun item _ => nodup_offersOf _ _ _, ?_⟩
  refine (List.pairwise_map.1 hcores).imp_of_mem ?_
  intro item item' hitem hitem' hne
  rw [Function.onFun, List.disjoint_left]
  rintro ⟨a, o⟩ ho ho'
  obtain ⟨ho, hshift⟩ := List.mem_filter.1 ho
  obtain ⟨ho', -⟩ := List.mem_filter.1 ho'
  exact hne (core_eq_of_mem_offersOf hg hs hitem hitem' ho ho' (by simpa using hshift))

/-- What holds of the offers of every state. -/
theorem regular_offers (hg : g.WellFormed) (hs : (statesOf g)[i]? = some s) :
    Regular g.augment (offers g.augment s) where
  shift _ _ _ hnext hold := offers_shift_unique hold hnext
  below o ho := by
    rw [Grammar.terminals_augment]
    exact lt_of_mem_offers hg hs ho
  nodup := nodup_offers hg hs

end Tables

end ShiftReduce
