import ShiftReduce.Lalr.Tables
import ShiftReduce.Proofs.Lalr.Automaton

/-!
# What the tables say

A cell of the action table holds one of the offers that were made to it, or nothing
(`actionAt_sound`). If no conflict had to be settled, it holds every offer that was made to it, so
that there is only one (`actionAt_of_offer`). The entries of the other table are the moves of the
states (`gotoAt_eq`).

The tables of a grammar are made from the states of the augmented one. `Tables.Made` collects what
is known about them.
-/

namespace ShiftReduce

/-! ### Cells -/

theorem Offer.action_injective : Function.Injective Offer.action := by
  intro o o' h
  cases o <;> cases o' <;> simp_all [Offer.action]

namespace Cell

variable {g : Grammar} {t : Nat} {cell cell' : Cell} {verdict : Option Verdict}

/-- What the cell holds has been offered. -/
def From (P : Offer → Prop) : Cell → Prop
  | .vacant => True
  | .shift next => P (.shift next)
  | .reduce prod => P (.reduce prod)
  | .accept => P .accept
  | .emptied next prod => P (.shift next) ∧ P (.reduce prod)

theorem from_weigh {P : Offer → Prop} {next prod : Nat} (hshift : P (.shift next))
    (hreduce : P (.reduce prod)) (choice : Preference) : From P (weigh next prod choice) := by
  cases choice with
  | shift => exact hshift
  | reduce => exact hreduce
  | neither => exact ⟨hshift, hreduce⟩

/-- The better of two productions is one of them. -/
theorem eq_or_eq_of_betterProd {p q winner : Nat} (h : betterProd g p q = some winner) :
    winner = p ∨ winner = q := by
  unfold betterProd at h
  split at h
  · split at h
    · exact Or.inl (Option.some.inj h).symm
    · split at h
      · exact Or.inr (Option.some.inj h).symm
      · exact absurd h (by simp)
  · exact absurd h (by simp)

theorem from_offerShift {P : Offer → Prop} (hcell : From P cell) {next : Nat}
    (hnext : P (.shift next)) (h : cell.offerShift g t next = .ok (cell', verdict)) :
    From P cell' := by
  cases cell with
  | vacant =>
    obtain ⟨rfl, -⟩ := Prod.mk.inj (Except.ok.inj h)
    exact hnext
  | shift old =>
    rw [offerShift] at h
    split at h
    · obtain ⟨rfl, -⟩ := Prod.mk.inj (Except.ok.inj h)
      exact hcell
    · exact absurd h (by simp)
  | reduce prod =>
    rw [offerShift] at h
    split at h
    · obtain ⟨rfl, -⟩ := Prod.mk.inj (Except.ok.inj h)
      exact from_weigh hnext hcell _
    · exact absurd h (by simp)
  | accept => exact absurd h (by simp [offerShift])
  | emptied old prod =>
    obtain ⟨rfl, -⟩ := Prod.mk.inj (Except.ok.inj h)
    exact hcell

theorem from_offerReduce {P : Offer → Prop} (hcell : From P cell) {prod : Nat}
    (hprod : P (.reduce prod)) (h : cell.offerReduce g t prod = .ok (cell', verdict)) :
    From P cell' := by
  cases cell with
  | vacant =>
    obtain ⟨rfl, -⟩ := Prod.mk.inj (Except.ok.inj h)
    exact hprod
  | shift next =>
    rw [offerReduce] at h
    split at h
    · obtain ⟨rfl, -⟩ := Prod.mk.inj (Except.ok.inj h)
      exact from_weigh hcell hprod _
    · exact absurd h (by simp)
  | reduce old =>
    rw [offerReduce] at h
    split at h
    · next winner hwinner =>
      obtain ⟨rfl, -⟩ := Prod.mk.inj (Except.ok.inj h)
      rcases eq_or_eq_of_betterProd hwinner with rfl | rfl
      · exact hcell
      · exact hprod
    · exact absurd h (by simp)
  | accept => exact absurd h (by simp [offerReduce])
  | emptied next old =>
    rw [offerReduce] at h
    split at h
    · obtain ⟨rfl, -⟩ := Prod.mk.inj (Except.ok.inj h)
      exact hcell
    · split at h
      · exact absurd h (by simp)
      · split at h
        · obtain ⟨rfl, -⟩ := Prod.mk.inj (Except.ok.inj h)
          exact hcell
        · split at h
          · obtain ⟨rfl, -⟩ := Prod.mk.inj (Except.ok.inj h)
            exact from_weigh hcell.1 hprod _
          · exact absurd h (by simp)

theorem from_offer {P : Offer → Prop} (hcell : From P cell) {o : Offer} (ho : P o)
    (h : cell.offer g t o = .ok (cell', verdict)) : From P cell' := by
  cases o with
  | shift next => exact from_offerShift hcell ho h
  | reduce prod => exact from_offerReduce hcell ho h
  | accept =>
    cases cell with
    | vacant =>
      obtain ⟨rfl, -⟩ := Prod.mk.inj (Except.ok.inj h)
      exact ho
    | shift _ => exact absurd h (by simp [offer, offerAccept])
    | reduce _ => exact absurd h (by simp [offer, offerAccept])
    | accept => exact absurd h (by simp [offer, offerAccept])
    | emptied _ _ => exact absurd h (by simp [offer, offerAccept])

/-- The cell has not been emptied by operators that do not associate. -/
def Undisputed : Cell → Prop
  | .emptied _ _ => False
  | _ => True

/-- Without a verdict, an offer is the first one for its cell or the same as the one before. -/
theorem offer_of_no_verdict (hcell : cell.Undisputed) {o : Offer}
    (h : cell.offer g t o = .ok (cell', none)) :
    cell'.Undisputed ∧ cell'.action = o.action ∧ (cell = .vacant ∨ cell' = cell) := by
  cases cell with
  | vacant =>
    cases o with
    | shift next =>
      obtain ⟨rfl, -⟩ := Prod.mk.inj (Except.ok.inj h)
      exact ⟨trivial, rfl, Or.inl rfl⟩
    | reduce prod =>
      obtain ⟨rfl, -⟩ := Prod.mk.inj (Except.ok.inj h)
      exact ⟨trivial, rfl, Or.inl rfl⟩
    | accept =>
      obtain ⟨rfl, -⟩ := Prod.mk.inj (Except.ok.inj h)
      exact ⟨trivial, rfl, Or.inl rfl⟩
  | shift old =>
    cases o with
    | shift next =>
      rw [offer, offerShift] at h
      split at h
      · next heq =>
        obtain ⟨rfl, -⟩ := Prod.mk.inj (Except.ok.inj h)
        exact ⟨trivial, by rw [heq]; rfl, Or.inr rfl⟩
      · exact absurd h (by simp)
    | reduce prod =>
      rw [offer, offerReduce] at h
      split at h
      · exact absurd h (by simp [judged])
      · exact absurd h (by simp)
    | accept => exact absurd h (by simp [offer, offerAccept])
  | reduce old =>
    cases o with
    | shift next =>
      rw [offer, offerShift] at h
      split at h
      · exact absurd h (by simp [judged])
      · exact absurd h (by simp)
    | reduce prod =>
      rw [offer, offerReduce] at h
      split at h
      · exact absurd h (by simp [judged])
      · exact absurd h (by simp)
    | accept => exact absurd h (by simp [offer, offerAccept])
  | accept =>
    cases o with
    | shift next => exact absurd h (by simp [offer, offerShift])
    | reduce prod => exact absurd h (by simp [offer, offerReduce])
    | accept => exact absurd h (by simp [offer, offerAccept])
  | emptied _ _ => exact absurd hcell id

end Cell

namespace Tables

variable {g : Grammar}

/-- The cell of a terminal in a row. -/
def cellAt (cells : Array Cell) (t : Nat) : Cell := cells[t]?.getD .vacant

theorem cellAt_set {cells : Array Cell} {t u : Nat} (ht : t < cells.size) (cell : Cell) :
    cellAt (cells.setIfInBounds t cell) u = if t = u then cell else cellAt cells u := by
  rw [cellAt, Array.getElem?_setIfInBounds]
  split
  · rfl
  · rfl

/-- Terminals that do not exist have no cell. -/
theorem set_of_size_le {cells : Array Cell} {t : Nat} (ht : cells.size ≤ t) (cell : Cell) :
    cells.setIfInBounds t cell = cells := by
  rw [Array.setIfInBounds, dif_neg (Nat.not_lt_of_le ht)]

theorem fillCells_sound {P : Nat → Offer → Prop} {i : Nat} {os : List (Nat × Offer)}
    {row row' : Row} (hos : ∀ o ∈ os, P o.1 o.2) (hrow : ∀ t, (cellAt row.cells t).From (P t))
    (h : fillCells g i os row = .ok row') :
    row'.cells.size = row.cells.size ∧ ∀ t, (cellAt row'.cells t).From (P t) := by
  induction os generalizing row with
  | nil =>
    obtain rfl : row = row' := Except.ok.inj h
    exact ⟨rfl, hrow⟩
  | cons o os ih =>
    obtain ⟨t, o⟩ := o
    obtain ⟨ho, hos⟩ := List.forall_mem_cons.1 hos
    rw [fillCells] at h
    split at h
    · exact absurd h (by simp)
    · next cell verdict hoffer =>
      have hcell : cell.From (P t) := Cell.from_offer (hrow t) ho hoffer
      have hrow' : ∀ u, (cellAt (row.cells.setIfInBounds t cell) u).From (P u) := by
        intro u
        by_cases ht : t < row.cells.size
        · rw [cellAt_set ht]
          split
          · next heq =>
            rw [← heq]
            exact hcell
          · exact hrow u
        · rw [set_of_size_le (Nat.le_of_not_lt ht)]
          exact hrow u
      obtain ⟨hsize, hfrom⟩ := ih hos hrow' h
      exact ⟨hsize.trans Array.size_setIfInBounds, hfrom⟩

/-- What is recorded stays. -/
theorem resolutions_of_fillCells {i : Nat} {os : List (Nat × Offer)} {row row' : Row}
    (h : fillCells g i os row = .ok row') (hnil : row'.resolutions = []) :
    row.resolutions = [] := by
  induction os generalizing row with
  | nil =>
    obtain rfl : row = row' := Except.ok.inj h
    exact hnil
  | cons o os ih =>
    rw [fillCells] at h
    split at h
    · exact absurd h (by simp)
    · exact (List.append_eq_nil_iff.1 (ih h)).1

/-- If no verdict was needed, every offer that was made is the action of its cell. -/
theorem fillCells_exact {i : Nat} {os : List (Nat × Offer)} {row row' : Row}
    (hrow : ∀ t, (cellAt row.cells t).Undisputed) (h : fillCells g i os row = .ok row')
    (hnil : row'.resolutions = []) :
    (∀ o ∈ os, o.1 < row.cells.size → (cellAt row'.cells o.1).action = o.2.action) ∧
      ∀ t, cellAt row.cells t ≠ .vacant → cellAt row'.cells t = cellAt row.cells t := by
  induction os generalizing row with
  | nil =>
    obtain rfl : row = row' := Except.ok.inj h
    exact ⟨fun o ho => absurd ho List.not_mem_nil, fun _ _ => rfl⟩
  | cons o os ih =>
    obtain ⟨t, o⟩ := o
    rw [fillCells] at h
    split at h
    · exact absurd h (by simp)
    · next cell verdict hoffer =>
      have hverdict := (List.append_eq_nil_iff.1 (resolutions_of_fillCells h hnil)).2
      cases verdict with
      | some v => exact absurd hverdict (by simp)
      | none =>
        obtain ⟨hcell, haction, hsame⟩ := Cell.offer_of_no_verdict (hrow t) hoffer
        simp only [Option.map_none, Option.toList_none, List.append_nil] at h
        by_cases ht : t < row.cells.size
        · have hrow' : ∀ u, (cellAt (row.cells.setIfInBounds t cell) u).Undisputed := by
            intro u
            rw [cellAt_set ht]
            split
            · exact hcell
            · exact hrow u
          obtain ⟨hos, hkept⟩ := ih hrow' h
          simp only [Array.size_setIfInBounds, cellAt_set ht] at hos hkept
          -- the cell holds the offer from now on
          have hvacant : cell ≠ .vacant := by
            rintro rfl
            cases o with
            | shift _ => exact absurd haction (by simp [Cell.action, Offer.action])
            | reduce _ => exact absurd haction (by simp [Cell.action, Offer.action])
            | accept => exact absurd haction (by simp [Cell.action, Offer.action])
          have hheld : cellAt row'.cells t = cell := by
            have := hkept t
            rw [if_pos rfl] at this
            exact this hvacant
          refine ⟨?_, ?_⟩
          · intro o' ho' hlt
            rcases List.mem_cons.1 ho' with rfl | ho'
            · rw [hheld, haction]
            · exact hos o' ho' hlt
          · intro u hu
            by_cases htu : t = u
            · subst htu
              rw [hheld]
              exact hsame.resolve_left hu
            · have := hkept u
              rw [if_neg htu] at this
              exact this hu
        · rw [set_of_size_le (Nat.le_of_not_lt ht)] at h
          obtain ⟨hos, hkept⟩ := ih hrow h
          refine ⟨?_, hkept⟩
          intro o' ho' hlt
          rcases List.mem_cons.1 ho' with rfl | ho'
          · exact absurd hlt ht
          · exact hos o' ho' hlt

/-! ### Rows -/

/-- The cells before any offer. -/
def vacantCells (g : Grammar) : Array Cell := Array.replicate g.terminals.size .vacant

theorem cellAt_vacantCells (g : Grammar) (t : Nat) : cellAt (vacantCells g) t = .vacant := by
  rw [cellAt, vacantCells, Array.getElem?_replicate]
  split
  · rfl
  · rfl

/-- The cells of a row were filled with the offers of the state. They hold some of these offers, and
all of them if no conflict had to be settled. -/
structure RowFor (g : Grammar) (s : State) (settled : Prop) (cells : Array Cell) : Prop where
  filled : ∃ i before row, fillCells g i (offers g s) ⟨vacantCells g, before⟩ = .ok row ∧
    row.cells = cells
  size : cells.size = g.terminals.size
  sound : ∀ t, (cellAt cells t).From fun o => (t, o) ∈ offers g s
  exact : settled → ∀ o ∈ offers g s, o.1 < g.terminals.size →
    (cellAt cells o.1).action = o.2.action

theorem rowFor_of_fillCells {i : Nat} {s : State} {resolutions : List Resolution} {row : Row}
    (h : fillCells g i (offers g s) ⟨Array.replicate g.terminals.size .vacant, resolutions⟩ =
      .ok row) : RowFor g s (row.resolutions = []) row.cells := by
  change fillCells g i (offers g s) ⟨vacantCells g, resolutions⟩ = .ok row at h
  obtain ⟨hsize, hsound⟩ := fillCells_sound (P := fun t o => (t, o) ∈ offers g s)
    (fun _ ho => ho) (fun t => by rw [cellAt_vacantCells]; trivial) h
  refine { filled := ⟨_, _, _, h, rfl⟩, size := hsize.trans Array.size_replicate, sound := hsound,
           exact := ?_ }
  intro hnil o ho hlt
  refine (fillCells_exact (fun t => by rw [cellAt_vacantCells]; trivial) h hnil).1 o ho ?_
  exact Nat.lt_of_lt_of_eq hlt Array.size_replicate.symm

theorem fillRows_spec {ss : List State} {filled filled' : Filled}
    (h : fillRows g ss filled = .ok filled') :
    (filled'.resolutions = [] → filled.resolutions = []) ∧
    (∀ i < filled.rows.size, filled'.rows[i]? = filled.rows[i]?) ∧
    filled'.rows.size = filled.rows.size + ss.length ∧
    ∀ {i : Nat} {s : State}, ss[i]? = some s → ∃ cells,
      filled'.rows[filled.rows.size + i]? = some cells ∧
        RowFor g s (filled'.resolutions = []) cells := by
  induction ss generalizing filled with
  | nil =>
    obtain rfl : filled = filled' := Except.ok.inj h
    exact ⟨id, fun _ _ => rfl, rfl, fun hi => absurd hi (by simp)⟩
  | cons s ss ih =>
    rw [fillRows] at h
    split at h
    · exact absurd h (by simp)
    · next row hrow =>
      obtain ⟨hnil, hkept, hsize, hrows⟩ := ih h
      rw [Array.size_push] at hkept hsize hrows
      refine ⟨?_, ?_, ?_, ?_⟩
      · intro hres
        exact resolutions_of_fillCells hrow (hnil hres)
      · intro i hi
        rw [hkept i (Nat.lt_succ_of_lt hi), Array.getElem?_push, if_neg (Nat.ne_of_lt hi)]
      · rw [hsize, List.length_cons]
        omega
      · intro i s' hs'
        cases i with
        | zero =>
          rw [List.getElem?_cons_zero, Option.some.injEq] at hs'
          subst hs'
          refine ⟨row.cells, ?_, ?_⟩
          · rw [Nat.add_zero, hkept _ (Nat.lt_succ_self _), Array.getElem?_push, if_pos rfl]
          · obtain ⟨hfilled, hsize, hsound, hexact⟩ := rowFor_of_fillCells hrow
            exact ⟨hfilled, hsize, hsound, fun hres => hexact (hnil hres)⟩
        | succ i =>
          rw [List.getElem?_cons_succ] at hs'
          obtain ⟨cells, hcells, hrow'⟩ := hrows hs'
          refine ⟨cells, ?_, hrow'⟩
          rw [← hcells]
          congr 1
          omega

/-! ### Offers -/

theorem mem_offersOf {s : State} {item : Item} {a : Nat} {o : Offer} :
    (a, o) ∈ offersOf g s item ↔
      (Collection.accepts g item.core = true ∧ a = g.eof ∧ o = .accept) ∨
      Collection.accepts g item.core = false ∧
        ((∃ j, item.core.next? g = some (.terminal a) ∧ s.move? (.terminal a) = some j ∧
          o = .shift j) ∨
        item.core.next? g = none ∧ a ∈ item.look ∧ o = .reduce item.core.prod) := by
  rw [offersOf]
  split
  · next haccepts => simp [haccepts]
  · next haccepts =>
    rw [Bool.not_eq_true] at haccepts
    rw [haccepts]
    simp only [Bool.false_eq_true, false_and, false_or, true_and]
    split
    · next t hnext =>
      rw [hnext]
      simp only [Option.mem_toList, Option.map_eq_some_iff, Prod.mk.injEq, Option.some.injEq,
        Symbol.terminal.injEq, reduceCtorEq, false_and, or_false]
      constructor
      · rintro ⟨j, hj, rfl, rfl⟩
        exact ⟨j, rfl, hj, rfl⟩
      · rintro ⟨j, rfl, hj, rfl⟩
        exact ⟨j, hj, rfl, rfl⟩
    · next n hnext => simp [hnext]
    · next hnext =>
      rw [hnext]
      simp only [List.mem_map, IdSet.mem_toList, Prod.mk.injEq, reduceCtorEq, false_and,
        exists_false, true_and, false_or]
      constructor
      · rintro ⟨t, ht, rfl, rfl⟩
        exact ⟨ht, rfl⟩
      · rintro ⟨ha, rfl⟩
        exact ⟨a, ha, rfl, rfl⟩

theorem mem_offers {s : State} {a : Nat} {o : Offer} :
    (a, o) ∈ offers g s ↔ ∃ item ∈ s.items g, (a, o) ∈ offersOf g s item := List.mem_flatMap

/-- A cell that does something holds an offer. -/
theorem exists_offer_of_from {P : Offer → Prop} {cell : Cell} (h : cell.From P)
    (hne : cell.action ≠ .error) : ∃ o, P o ∧ o.action = cell.action := by
  cases cell with
  | vacant => exact absurd rfl hne
  | shift next => exact ⟨_, h, rfl⟩
  | reduce prod => exact ⟨_, h, rfl⟩
  | accept => exact ⟨_, h, rfl⟩
  | emptied next prod => exact absurd rfl hne

/-! ### The tables of a grammar -/

variable {t : Tables}

/-- The states that the tables are made from. -/
def statesOf (g : Grammar) : Array State := Collection.ofGrammar g.augment

/-- The tables hold what the states of the augmented grammar offer. -/
structure Made (g : Grammar) (t : Tables) : Prop where
  rows : ∀ {i : Nat} {s : State}, (statesOf g)[i]? = some s → ∃ cells : Array Cell,
    t.action[i]? = some (cells.map Cell.action) ∧
      RowFor g.augment s (t.resolutions = []) cells
  size : t.action.size = (statesOf g).size
  goto : t.goto = (statesOf g).map (gotoRow g.augment)
  prods : t.prods = g.augment.prods.map fun p => (p.nt, p.symbols.length)
  start : t.start = 0
  eof : t.eof = g.eof

theorem made_of_build (h : build g = .ok t) : Made g t := by
  rw [build, construct] at h
  split at h
  · exact absurd h (by simp)
  · next filled hfilled =>
    obtain rfl : ofFilled g.augment (statesOf g) filled = t := Except.ok.inj h
    obtain ⟨-, -, hsize, hrows⟩ := fillRows_spec hfilled
    refine { rows := ?_, size := ?_, goto := rfl, prods := rfl, start := rfl, eof := rfl }
    · intro i s hs
      obtain ⟨cells, hcells, hrow⟩ := hrows (Array.getElem?_toList.trans hs)
      refine ⟨cells, ?_, hrow⟩
      rw [Array.size_empty, Nat.zero_add] at hcells
      simp only [ofFilled, Array.getElem?_map, hcells, Option.map_some]
    · simp only [ofFilled, Array.size_map, hsize, Array.size_empty, Nat.zero_add,
        Array.length_toList]
      rfl

theorem actionAt_of_cells {i a : Nat} {cells : Array Cell}
    (h : t.action[i]? = some (cells.map Cell.action)) :
    t.actionAt i a = (cellAt cells a).action := by
  rw [actionAt, h, Option.bind_some, Array.getElem?_map, cellAt]
  cases cells[a]? with
  | none => rfl
  | some cell => rfl

/-- An action other than an error has been offered. -/
theorem Made.actionAt_sound (h : Made g t) {i a : Nat} (hne : t.actionAt i a ≠ .error) :
    ∃ s, (statesOf g)[i]? = some s ∧ ∃ o, (a, o) ∈ offers g.augment s ∧
      o.action = t.actionAt i a := by
  have hlt : i < (statesOf g).size := by
    by_contra hge
    rw [← h.size] at hge
    rw [actionAt, Array.getElem?_eq_none (Nat.le_of_not_lt hge)] at hne
    exact hne rfl
  have hs := Array.getElem?_eq_getElem hlt
  obtain ⟨cells, hcells, hrow⟩ := h.rows hs
  rw [actionAt_of_cells hcells] at hne ⊢
  exact ⟨_, hs, exists_offer_of_from (hrow.sound a) hne⟩

/-- An action other than an error comes from an offer to do just this. -/
theorem Made.offer_of_actionAt (h : Made g t) {i a : Nat} {o : Offer}
    (haction : t.actionAt i a = o.action) :
    ∃ s, (statesOf g)[i]? = some s ∧ (a, o) ∈ offers g.augment s := by
  have hne : t.actionAt i a ≠ .error := by
    rw [haction]
    cases o <;> simp [Offer.action]
  obtain ⟨s, hs, o', ho', hact⟩ := h.actionAt_sound hne
  obtain rfl : o' = o := Offer.action_injective (hact.trans haction)
  exact ⟨s, hs, ho'⟩

/-- If no conflict had to be settled, every offer is the action. -/
theorem Made.actionAt_of_offer (h : Made g t) (hres : t.resolutions = []) {i a : Nat} {s : State}
    (hs : (statesOf g)[i]? = some s) {o : Offer} (ho : (a, o) ∈ offers g.augment s)
    (ha : a < g.terminals.size) : t.actionAt i a = o.action := by
  obtain ⟨cells, hcells, hrow⟩ := h.rows hs
  rw [actionAt_of_cells hcells]
  exact hrow.exact hres _ ho ha

theorem getElem?_gotoRow (g : Grammar) (s : State) (n : Nat) : (gotoRow g s)[n]? =
    if n < g.nts.size then some (s.move? (.nonterminal n)) else none := by
  rw [gotoRow, List.getElem?_toArray, List.getElem?_map]
  split
  · next hlt => rw [List.getElem?_range hlt, Option.map_some]
  · next hge => rw [List.getElem?_eq_none (by rw [List.length_range]; omega), Option.map_none]

/-- The other table holds the moves of the states. -/
theorem Made.gotoAt_eq (h : Made g t) (i n : Nat) : t.gotoAt i n =
    if n < g.augment.nts.size then Collection.step (statesOf g) i (.nonterminal n) else none := by
  rw [gotoAt, h.goto, Array.getElem?_map, Collection.step]
  cases (statesOf g)[i]? with
  | none =>
    split
    · rfl
    · rfl
  | some s =>
    rw [Option.map_some, Option.bind_some, getElem?_gotoRow]
    split
    · rfl
    · rfl

theorem Made.step_of_gotoAt (h : Made g t) {i n j : Nat} (hj : t.gotoAt i n = some j) :
    Collection.step (statesOf g) i (.nonterminal n) = some j := by
  rw [h.gotoAt_eq] at hj
  split at hj
  · exact hj
  · exact absurd hj (by simp)

end Tables

end ShiftReduce
