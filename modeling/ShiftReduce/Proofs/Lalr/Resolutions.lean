import Mathlib.Data.Sym.Sym2
import ShiftReduce.Proofs.Lalr.Candidates

/-!
# What is recorded of the settled conflicts

A verdict is recorded whenever an offer meets something else in its cell and precedence chooses between
the two. `Cell.Taken` lists what an offer can do to a cell, and `Cell.Recorded` says what the verdicts of
a cell tell about the offers made to it; every offer keeps it (`Cell.Recorded.offer`).

So a cell has verdicts exactly if there are two candidates for it, and the last verdict has chosen its
action (`Tables.resolutions_recorded`). The same two actions are recorded again only in one case: a shift
that has given way to a reduction is offered by a further item of the state, and is held against the
reduction once more. `Tables.recorded_twice` is a grammar in which this happens.
-/

namespace ShiftReduce

/-- The two actions that a verdict is about, in any order. -/
def Verdict.pair (v : Verdict) : Sym2 Action := s(v.previous, v.new)

/-! ### Cells -/

namespace Cell

variable {g : Grammar} {t : Nat} {cell cell' : Cell} {o : Offer} {verdict : Option Verdict}
  {made : List Offer} {verdicts : List Verdict}

/-- The cell with one offer. -/
def single : Offer → Cell
  | .shift next => .shift next
  | .reduce prod => .reduce prod
  | .accept => .accept

/-- What an offer that does not clash makes of a cell, and the verdict about it. -/
inductive Taken (g : Grammar) (t : Nat) : Cell → Offer → Cell → Option Verdict → Prop
  | first (o : Offer) : Taken g t .vacant o (single o) none
  | sameShift (next : Nat) : Taken g t (.shift next) (.shift next) (.shift next) none
  | lateShift (next old prod : Nat) :
    Taken g t (.emptied old prod) (.shift next) (.emptied old prod) none
  | sameReduce (next prod : Nat) :
    Taken g t (.emptied next prod) (.reduce prod) (.emptied next prod) none
  | reduceAgainst {next prod : Nat} {choice : Preference} (h : preference g prod t = some choice) :
    Taken g t (.shift next) (.reduce prod) (weigh next prod choice)
      (some ⟨.shift next, .reduce prod, (weigh next prod choice).action⟩)
  | shiftAgainst {next prod : Nat} {choice : Preference} (h : preference g prod t = some choice) :
    Taken g t (.reduce prod) (.shift next) (weigh next prod choice)
      (some ⟨.reduce prod, .shift next, (weigh next prod choice).action⟩)
  | rival {old prod : Nat} (cell' : Cell) :
    Taken g t (.reduce old) (.reduce prod) cell' (some ⟨.reduce old, .reduce prod, cell'.action⟩)
  | lateRival {next old prod : Nat} (cell' : Cell) :
    Taken g t (.emptied next old) (.reduce prod) cell'
      (some ⟨.reduce old, .reduce prod, cell'.action⟩)

theorem taken_of_offer (h : cell.offer g t o = .ok (cell', verdict)) :
    Taken g t cell o cell' verdict := by
  cases cell with
  | vacant =>
    cases o <;> (obtain ⟨rfl, rfl⟩ := Prod.mk.inj (Except.ok.inj h); exact .first _)
  | shift old =>
    cases o with
    | shift next =>
      rw [offer, offerShift] at h
      split at h
      · next heq =>
        subst heq
        obtain ⟨rfl, rfl⟩ := Prod.mk.inj (Except.ok.inj h)
        exact .sameShift old
      · exact absurd h (by simp)
    | reduce prod =>
      rw [offer, offerReduce] at h
      split at h
      · next choice hchoice =>
        obtain ⟨rfl, rfl⟩ := Prod.mk.inj (Except.ok.inj h)
        exact .reduceAgainst hchoice
      · exact absurd h (by simp)
    | accept => exact absurd h (by simp [offer, offerAccept])
  | reduce old =>
    cases o with
    | shift next =>
      rw [offer, offerShift] at h
      split at h
      · next choice hchoice =>
        obtain ⟨rfl, rfl⟩ := Prod.mk.inj (Except.ok.inj h)
        exact .shiftAgainst hchoice
      · exact absurd h (by simp)
    | reduce prod =>
      rw [offer, offerReduce] at h
      split at h
      · obtain ⟨rfl, rfl⟩ := Prod.mk.inj (Except.ok.inj h)
        exact .rival _
      · exact absurd h (by simp)
    | accept => exact absurd h (by simp [offer, offerAccept])
  | accept => cases o <;> exact absurd h (by simp [offer, offerShift, offerReduce, offerAccept])
  | emptied next old =>
    cases o with
    | shift _ =>
      obtain ⟨rfl, rfl⟩ := Prod.mk.inj (Except.ok.inj h)
      exact .lateShift _ _ _
    | reduce prod =>
      rw [offer, offerReduce] at h
      split at h
      · next heq =>
        subst heq
        obtain ⟨rfl, rfl⟩ := Prod.mk.inj (Except.ok.inj h)
        exact .sameReduce _ _
      · split at h
        · exact absurd h (by simp)
        · split at h
          · obtain ⟨rfl, rfl⟩ := Prod.mk.inj (Except.ok.inj h)
            exact .lateRival _
          · split at h
            · obtain ⟨rfl, rfl⟩ := Prod.mk.inj (Except.ok.inj h)
              exact .lateRival _
            · exact absurd h (by simp)
    | accept => exact absurd h (by simp [offer, offerAccept])

/-- A verdict chooses what the cell does from then on. -/
theorem Taken.chosen_eq {v : Verdict} (h : Taken g t cell o cell' (some v)) :
    v.chosen = cell'.action := by
  cases h <;> rfl

/-- The actions of a verdict are that of something in the cell and that of the offer, and only one of
the two is a shift. -/
theorem Taken.between {v : Verdict} {P : Offer → Prop} (h : Taken g t cell o cell' (some v))
    (hcell : cell.From P) : ∃ old, P old ∧ (o.isShift = true → old.isShift = false) ∧
      v.previous = old.action ∧ v.new = o.action := by
  cases h with
  | reduceAgainst _ => exact ⟨_, hcell, fun hshift => absurd hshift (by simp [Offer.isShift]), rfl, rfl⟩
  | shiftAgainst _ => exact ⟨_, hcell, fun _ => rfl, rfl, rfl⟩
  | rival _ => exact ⟨_, hcell, fun _ => rfl, rfl, rfl⟩
  | lateRival _ => exact ⟨_, hcell.2, fun _ => rfl, rfl, rfl⟩

/-- A verdict about a shift and a reduction is what precedence makes of the two. -/
theorem Taken.weighed {v : Verdict} (h : Taken g t cell o cell' (some v)) {next prod : Nat}
    (hpair : v.pair = s(.shift next, .reduce prod)) :
    ∃ choice, preference g prod t = some choice ∧ v.chosen = (weigh next prod choice).action := by
  cases h with
  | reduceAgainst hchoice =>
    simp only [Verdict.pair, Sym2.eq_iff, Action.shift.injEq, Action.reduce.injEq, reduceCtorEq,
      false_and, or_false] at hpair
    obtain ⟨rfl, rfl⟩ := hpair
    exact ⟨_, hchoice, rfl⟩
  | shiftAgainst hchoice =>
    simp only [Verdict.pair, Sym2.eq_iff, Action.shift.injEq, Action.reduce.injEq, reduceCtorEq,
      false_and, false_or] at hpair
    obtain ⟨rfl, rfl⟩ := hpair
    exact ⟨_, hchoice, rfl⟩
  | rival _ => exact absurd hpair (by simp [Verdict.pair])
  | lateRival _ => exact absurd hpair (by simp [Verdict.pair])

/-- Without a verdict, an offer is the first one for its cell or has been made before. -/
theorem Taken.mem_of_no_verdict (h : Taken g t cell o cell' none)
    (hcell : cell.Settled g t (· ∈ made))
    (hone : ∀ next old, o = .shift next → .shift old ∈ made → old = next) :
    cell = .vacant ∨ o ∈ made ∧ cell' = cell := by
  cases h with
  | first o => exact Or.inl rfl
  | sameShift next => exact Or.inr ⟨hcell.1, rfl⟩
  | lateShift next old prod =>
    obtain rfl := hone next old rfl hcell.1
    exact Or.inr ⟨hcell.1, rfl⟩
  | sameReduce next prod => exact Or.inr ⟨hcell.2.1.1, rfl⟩

/-- The case in which a verdict `w` is about the same two actions as the verdict `v` before: the shift has
given way to the reduction, and does so again when it is offered once more. -/
def Repeats (made : List Offer) (v w : Verdict) : Prop :=
  ∃ next prod, w = ⟨.reduce prod, .shift next, .reduce prod⟩ ∧ v.chosen = .reduce prod ∧
    2 ≤ made.count (.shift next)

/-- What the verdicts of a cell tell about the offers made to it. -/
structure Recorded (g : Grammar) (t : Nat) (made : List Offer) (cell : Cell)
    (verdicts : List Verdict) : Prop where
  settled : cell.Settled g t (· ∈ made)
  between : ∀ v ∈ verdicts, ∃ o ∈ made, ∃ o' ∈ made, o ≠ o' ∧ v.previous = o.action ∧
    v.new = o'.action
  weighed : ∀ v ∈ verdicts, ∀ next prod, v.pair = s(.shift next, .reduce prod) →
    ∃ choice, preference g prod t = some choice ∧ v.chosen = (weigh next prod choice).action
  complete : ∀ o ∈ made, ∀ o' ∈ made, o ≠ o' → verdicts ≠ []
  last : ∀ v ∈ verdicts.getLast?, v.chosen = cell.action
  once : verdicts.Pairwise fun v w => v.pair = w.pair → Repeats made v w

theorem recorded_nil : Recorded g t [] .vacant [] where
  settled _ ho := absurd ho List.not_mem_nil
  between _ hv := absurd hv List.not_mem_nil
  weighed _ hv := absurd hv List.not_mem_nil
  complete _ ho := absurd ho List.not_mem_nil
  last _ hv := absurd hv (by simp)
  once := List.Pairwise.nil

theorem Repeats.append {v w : Verdict} (h : Repeats made v w) (o : Offer) :
    Repeats (made ++ [o]) v w := by
  obtain ⟨next, prod, rfl, hchosen, hcount⟩ := h
  refine ⟨next, prod, rfl, hchosen, hcount.trans ?_⟩
  rw [List.count_append]
  exact Nat.le_add_right _ _

namespace Recorded

theorem nonempty_of_mem (h : Recorded g t made cell verdicts) {v : Verdict} (hv : v ∈ verdicts) :
    cell ≠ .vacant := by
  rintro rfl
  obtain ⟨o, ho, -⟩ := h.between v hv
  exact h.settled o ho

/-- If a verdict is about the same two actions as one before, it repeats it. -/
theorem repeats (h : Recorded g t made cell verdicts) (hnew : o.isShift = false → o ∉ made)
    {v w : Verdict} (htaken : Taken g t cell o cell' (some w)) (hv : v ∈ verdicts)
    (hpair : v.pair = w.pair) : Repeats (made ++ [o]) v w := by
  obtain ⟨-, -, -, -, hnewAction⟩ := htaken.between h.settled.holds
  -- the offer is one of the two that the verdict before is about
  have hmem : o ∈ made := by
    obtain ⟨o₁, ho₁, o₂, ho₂, -, hprev, hnext⟩ := h.between v hv
    have hin : o.action ∈ v.pair := by
      rw [hpair, ← hnewAction]
      exact Sym2.mem_mk_right _ _
    rw [Verdict.pair, Sym2.mem_iff, hprev, hnext] at hin
    rcases hin with heq | heq
    · rwa [Offer.action_injective heq]
    · rwa [Offer.action_injective heq]
  cases htaken with
  | reduceAgainst _ => exact absurd hmem (hnew rfl)
  | rival _ => exact absurd hmem (hnew rfl)
  | lateRival _ => exact absurd hmem (hnew rfl)
  | @shiftAgainst next prod choice hchoice =>
    have hreduce := h.settled.2.2 next hmem
    obtain rfl : choice = .reduce := Option.some.inj (hchoice.symm.trans hreduce)
    obtain ⟨choice', hchoice', hchosen⟩ := h.weighed v hv next prod (hpair.trans Sym2.eq_swap)
    obtain rfl : choice' = .reduce := Option.some.inj (hchoice'.symm.trans hreduce)
    refine ⟨next, prod, rfl, hchosen, ?_⟩
    rw [List.count_append, List.count_singleton_self]
    exact Nat.succ_le_succ (List.count_pos_iff.2 hmem)

/-- An offer keeps what the verdicts of its cell tell, if it is a new one or the same shift as before. -/
theorem offer (h : Recorded g t made cell verdicts)
    (hone : ∀ next old, o = .shift next → .shift old ∈ made → old = next)
    (hnew : o.isShift = false → o ∉ made) (hoffer : cell.offer g t o = .ok (cell', verdict)) :
    Recorded g t (made ++ [o]) cell' (verdicts ++ verdict.toList) := by
  have htaken := taken_of_offer hoffer
  have hsettled : cell'.Settled g t (· ∈ made ++ [o]) := by
    have := h.settled.offer hone hnew hoffer
    simpa only [List.mem_append, List.mem_singleton] using this
  have hbetween : ∀ v ∈ verdicts, ∃ o' ∈ made ++ [o], ∃ o'' ∈ made ++ [o], o' ≠ o'' ∧
      v.previous = o'.action ∧ v.new = o''.action := by
    intro v hv
    obtain ⟨o₁, ho₁, o₂, ho₂, hrest⟩ := h.between v hv
    exact ⟨o₁, List.mem_append_left _ ho₁, o₂, List.mem_append_left _ ho₂, hrest⟩
  have honce := h.once.imp fun hrepeat hpair => (hrepeat hpair).append o
  cases verdict with
  | none =>
    have hsame := htaken.mem_of_no_verdict h.settled hone
    rw [Option.toList_none, List.append_nil]
    refine ⟨hsettled, hbetween, h.weighed, ?_, ?_, honce⟩
    · intro o₁ h₁ o₂ h₂ hne
      rcases hsame with rfl | ⟨hmem, -⟩
      · have honly : ∀ {o'}, o' ∈ made ++ [o] → o' = o := fun ho' =>
          (List.mem_append.1 ho').elim (fun hmade => absurd hmade (h.settled _)) List.mem_singleton.1
        exact absurd ((honly h₁).trans (honly h₂).symm) hne
      · have hmade : ∀ {o'}, o' ∈ made ++ [o] → o' ∈ made := fun ho' =>
          (List.mem_append.1 ho').elim id fun heq => List.mem_singleton.1 heq ▸ hmem
        exact h.complete _ (hmade h₁) _ (hmade h₂) hne
    · intro v hv
      rcases hsame with hvacant | ⟨-, rfl⟩
      · exact absurd hvacant (h.nonempty_of_mem (List.mem_of_getLast? hv))
      · exact h.last v hv
  | some w =>
    rw [Option.toList_some]
    refine ⟨hsettled, ?_, ?_, fun _ _ _ _ _ => by simp, ?_, ?_⟩
    · intro v hv
      rcases List.mem_append.1 hv with hv | hv
      · exact hbetween v hv
      · obtain rfl := List.mem_singleton.1 hv
        obtain ⟨old, hold, hshift, hprevious, hnext⟩ := htaken.between h.settled.holds
        refine ⟨old, List.mem_append_left _ hold, o, by simp, ?_, hprevious, hnext⟩
        rintro rfl
        cases hcase : old.isShift with
        | false => exact hnew hcase hold
        | true => exact absurd (hshift hcase) (by simp [hcase])
    · intro v hv next prod hpair
      rcases List.mem_append.1 hv with hv | hv
      · exact h.weighed v hv next prod hpair
      · obtain rfl := List.mem_singleton.1 hv
        exact htaken.weighed hpair
    · intro v hv
      rw [List.getLast?_append, List.getLast?_singleton] at hv
      obtain rfl : w = v := by simpa using hv
      exact htaken.chosen_eq
    · refine List.pairwise_append.2 ⟨honce, List.pairwise_singleton _ _, fun v hv w' hw' hpair => ?_⟩
      obtain rfl := List.mem_singleton.1 hw'
      exact h.repeats hnew htaken hv hpair

end Recorded

end Cell

/-! ### Rows -/

namespace Tables

variable {g : Grammar} {t : Tables} {i j a : Nat} {s : State} {os done rest : List (Nat × Offer)}
  {row row' : Row} {rs rs' : List Resolution}

/-- The offers made on one terminal, in order. -/
def offersTo (a : Nat) (os : List (Nat × Offer)) : List Offer :=
  (os.filter fun o => o.1 = a).map Prod.snd

/-- The verdicts recorded for a state and a terminal, in order. -/
def verdictsAt (rs : List Resolution) (i a : Nat) : List Verdict :=
  (rs.filter fun r => r.state = i ∧ r.terminal = a).map Resolution.verdict

theorem mem_offersTo {o : Offer} : o ∈ offersTo a os ↔ (a, o) ∈ os := by
  simp [offersTo]

theorem offersTo_append (a : Nat) (os os' : List (Nat × Offer)) :
    offersTo a (os ++ os') = offersTo a os ++ offersTo a os' := by
  rw [offersTo, List.filter_append, List.map_append, offersTo, offersTo]

theorem verdictsAt_append (rs rs' : List Resolution) (i a : Nat) :
    verdictsAt (rs ++ rs') i a = verdictsAt rs i a ++ verdictsAt rs' i a := by
  rw [verdictsAt, List.filter_append, List.map_append, verdictsAt, verdictsAt]

theorem verdictsAt_eq_nil (h : ∀ r ∈ rs, r.state ≠ i) : verdictsAt rs i a = [] := by
  rw [verdictsAt, List.map_eq_nil_iff, List.filter_eq_nil_iff]
  intro r hr
  simp [h r hr]

/-- What the verdicts of a row tell about the offers that filled it. -/
theorem Regular.recorded_fillCells (h : Regular g (done ++ rest))
    (hsize : row.cells.size = g.terminals.size)
    (hrow : ∀ u, Cell.Recorded g u (offersTo u done) (cellAt row.cells u)
      (verdictsAt row.resolutions i u))
    (hfill : fillCells g i rest row = .ok row') (u : Nat) :
    Cell.Recorded g u (offersTo u (done ++ rest)) (cellAt row'.cells u)
      (verdictsAt row'.resolutions i u) := by
  induction rest generalizing done row with
  | nil =>
    obtain rfl : row = row' := Except.ok.inj hfill
    rw [List.append_nil]
    exact hrow u
  | cons o rest ih =>
    obtain ⟨b, o⟩ := o
    rw [fillCells] at hfill
    split at hfill
    · exact absurd hfill (by simp)
    · next cell verdict hoffer =>
      have hlt : b < row.cells.size := by
        rw [hsize]
        exact h.below (b, o) (List.mem_append_right _ List.mem_cons_self)
      have hcell := (hrow b).offer (fun next old ho hold => h.shift_eq next old ho (mem_offersTo.1 hold))
        (fun ho hmem => h.not_mem ho (mem_offersTo.1 hmem)) hoffer
      rw [List.append_cons] at h ⊢
      refine ih h (Array.size_setIfInBounds.trans hsize) (fun v => ?_) hfill
      rw [cellAt_set hlt, offersTo_append, verdictsAt_append]
      split
      · next heq =>
        subst heq
        cases verdict with
        | none => simpa [offersTo, verdictsAt] using hcell
        | some w => simpa [offersTo, verdictsAt] using hcell
      · next hne =>
        cases verdict with
        | none => simpa [offersTo, verdictsAt, hne] using hrow v
        | some w => simpa [offersTo, verdictsAt, hne] using hrow v

/-- What is recorded with a row stays behind what was recorded before, and is about the row. -/
theorem exists_recorded_of_fillCells (h : fillCells g i os row = .ok row') :
    ∃ rs, row'.resolutions = row.resolutions ++ rs ∧ ∀ r ∈ rs, r.state = i := by
  induction os generalizing row with
  | nil =>
    obtain rfl : row = row' := Except.ok.inj h
    exact ⟨[], (List.append_nil _).symm, fun r hr => absurd hr List.not_mem_nil⟩
  | cons o os ih =>
    rw [fillCells] at h
    split at h
    · exact absurd h (by simp)
    · next cell verdict hoffer =>
      obtain ⟨rs, hrs, hstate⟩ := ih h
      refine ⟨(verdict.map fun v => ⟨i, o.1, v⟩).toList ++ rs, ?_, fun r hr => ?_⟩
      · rw [hrs, List.append_assoc]
      · rcases List.mem_append.1 hr with hr | hr
        · obtain ⟨w, -, rfl⟩ := Option.map_eq_some_iff.1 (Option.mem_toList.1 hr)
          rfl
        · exact hstate r hr

/-- The rows one after the other: what is recorded with a row stands behind what was recorded with the
rows before it and in front of what was recorded with the rows behind it. -/
theorem exists_row_of_fillRows {ss : List State} {filled filled' : Filled}
    (h : fillRows g ss filled = .ok filled') :
    (∃ rs, filled'.resolutions = filled.resolutions ++ rs ∧
      ∀ r ∈ rs, filled.rows.size ≤ r.state ∧ r.state < filled.rows.size + ss.length) ∧
    ((∀ r ∈ filled.resolutions, r.state < filled.rows.size) → ∀ {k : Nat} {s : State},
      ss[k]? = some s → ∃ before row rs,
        fillCells g (filled.rows.size + k) (offers g s) ⟨vacantCells g, before⟩ = .ok row ∧
        filled'.rows[filled.rows.size + k]? = some row.cells ∧
        (∀ r ∈ before, r.state < filled.rows.size + k) ∧
        filled'.resolutions = row.resolutions ++ rs ∧
        ∀ r ∈ rs, filled.rows.size + k < r.state) := by
  induction ss generalizing filled with
  | nil =>
    obtain rfl : filled = filled' := Except.ok.inj h
    exact ⟨⟨[], (List.append_nil _).symm, fun r hr => absurd hr List.not_mem_nil⟩,
      fun _ _ _ hk => absurd hk (by simp)⟩
  | cons s ss ih =>
    rw [fillRows] at h
    split at h
    · exact absurd h (by simp)
    · next row hrow =>
      obtain ⟨⟨rs, hrs, hlater⟩, hrows⟩ := ih h
      obtain ⟨own, hown, hstate⟩ := exists_recorded_of_fillCells hrow
      simp only [Array.size_push] at hrs hlater hrows
      simp only at hown
      refine ⟨⟨own ++ rs, ?_, fun r hr => ?_⟩, fun hbefore k s' hs' => ?_⟩
      · rw [hrs, hown, List.append_assoc]
      · rw [List.length_cons]
        rcases List.mem_append.1 hr with hr | hr
        · rw [hstate r hr]
          omega
        · have := hlater r hr
          omega
      · cases k with
        | zero =>
          obtain rfl : s = s' := Option.some.inj hs'
          obtain ⟨-, hkept, -⟩ := fillRows_spec h
          refine ⟨filled.resolutions, row, rs, hrow, ?_, hbefore, hrs, fun r hr => ?_⟩
          · rw [hkept _ (by simp), Nat.add_zero, Array.getElem?_push_size]
          · exact (hlater r hr).1
        | succ k =>
          rw [List.getElem?_cons_succ] at hs'
          have hbefore' : ∀ r ∈ row.resolutions, r.state < filled.rows.size + 1 := by
            intro r hr
            rw [hown] at hr
            rcases List.mem_append.1 hr with hr | hr
            · exact Nat.lt_succ_of_lt (hbefore r hr)
            · rw [hstate r hr]
              exact Nat.lt_succ_self _
          have := hrows hbefore' hs'
          rwa [Nat.add_assoc, Nat.add_comm 1 k] at this

/-- The row of a state, with what was recorded before, with it and behind it. -/
theorem exists_row (ht : build g = .ok t) (hs : (statesOf g)[i]? = some s) : ∃ before row rs,
    fillCells g.augment i (offers g.augment s) ⟨vacantCells g.augment, before⟩ = .ok row ∧
    t.action[i]? = some (row.cells.map Cell.action) ∧ (∀ r ∈ before, r.state < i) ∧
    t.resolutions = row.resolutions ++ rs ∧ ∀ r ∈ rs, i < r.state := by
  rw [build, construct] at ht
  split at ht
  · exact absurd ht (by simp)
  · next filled hfilled =>
    obtain rfl : ofFilled g.augment (statesOf g) filled = t := Except.ok.inj ht
    obtain ⟨before, row, rs, hrow, hcells, hbefore, hrs, hlater⟩ :=
      (exists_row_of_fillRows hfilled).2 (fun r hr => absurd hr List.not_mem_nil)
        (Array.getElem?_toList.trans hs)
    simp only [Array.size_empty, Nat.zero_add] at hrow hcells hbefore hlater
    refine ⟨before, row, rs, hrow, ?_, hbefore, hrs, hlater⟩
    simp only [ofFilled, Array.getElem?_map, hcells, Option.map_some]

/-- Only states have entries. -/
theorem lt_of_mem_resolutions (ht : build g = .ok t) {r : Resolution} (hr : r ∈ t.resolutions) :
    r.state < (statesOf g).size := by
  rw [build, construct] at ht
  split at ht
  · exact absurd ht (by simp)
  · next filled hfilled =>
    obtain rfl : ofFilled g.augment (statesOf g) filled = t := Except.ok.inj ht
    obtain ⟨⟨rs, hrs, hstate⟩, -⟩ := exists_row_of_fillRows hfilled
    rw [ofFilled, hrs, List.nil_append] at hr
    have hlt := (hstate r hr).2
    rw [Array.size_empty, Nat.zero_add, Array.length_toList] at hlt
    exact hlt

/-- What the verdicts recorded for a state and a terminal tell about the offers of the state. -/
theorem exists_recorded (hg : g.WellFormed) (ht : build g = .ok t)
    (hs : (statesOf g)[i]? = some s) (a : Nat) : ∃ cell, t.actionAt i a = cell.action ∧
      Cell.Recorded g.augment a (offersTo a (offers g.augment s)) cell
        (verdictsAt t.resolutions i a) := by
  obtain ⟨before, row, rs, hrow, hcells, hbefore, hrs, hlater⟩ := exists_row ht hs
  have hall : Regular g.augment ([] ++ offers g.augment s) := regular_offers hg hs
  refine ⟨cellAt row.cells a, actionAt_of_cells hcells, ?_⟩
  have hnone : verdictsAt rs i a = [] := verdictsAt_eq_nil fun r hr => (hlater r hr).ne'
  rw [hrs, verdictsAt_append, hnone, List.append_nil]
  refine hall.recorded_fillCells Array.size_replicate (fun u => ?_) hrow a
  rw [cellAt_vacantCells, verdictsAt_eq_nil fun r hr => (hbefore r hr).ne]
  exact Cell.recorded_nil

/-! ### Shifts that are offered again -/

theorem count_offersTo (a : Nat) (o : Offer) (os : List (Nat × Offer)) :
    (offersTo a os).count o = os.count (a, o) := by
  rw [offersTo, List.count, List.countP_map, List.countP_filter, List.count]
  congr 1
  funext ⟨b, o'⟩
  rw [Bool.eq_iff_iff]
  simp [and_comm]

/-- A shift is offered once for each item that calls for the terminal. -/
theorem count_shift_le (g : Grammar) (s : State) (next : Nat) (items : List Item) :
    (items.flatMap (offersOf g s)).count (a, .shift next) ≤
      items.countP fun item => item.core.next? g = some (.terminal a) := by
  induction items with
  | nil => exact Nat.le_refl _
  | cons item items ih =>
    rw [List.flatMap_cons, List.count_append, List.countP_cons, Nat.add_comm]
    refine Nat.add_le_add ih ?_
    split
    · next hnext =>
      refine List.count_le_length.trans ?_
      rw [offersOf]
      split
      · exact Nat.le_refl _
      · rw [of_decide_eq_true hnext]
        exact Option.length_toList_le
    · next hnext =>
      rw [Nat.le_zero, List.count_eq_zero]
      intro hmem
      rcases mem_offersOf.1 hmem with ⟨-, -, heq⟩ | ⟨-, ⟨-, hnext', -, -⟩ | ⟨-, -, heq⟩⟩
      · exact absurd heq (by simp)
      · exact hnext (by simpa using hnext')
      · exact absurd heq (by simp)

/-- What is recorded when tables are built. A state has an entry for a terminal exactly if there are two
candidates, and the last entry has chosen the action. Two entries are about the same two actions only if
the later one is that of a shift which has given way to the reduction before: then two items of the state
call for the terminal. -/
theorem resolutions_recorded (hg : g.WellFormed) (ht : build g = .ok t) (i a : Nat) :
    (verdictsAt t.resolutions i a ≠ [] ↔ ∃ s, (statesOf g)[i]? = some s ∧ ∃ o o', o ≠ o' ∧
      Candidate g.augment s a o ∧ Candidate g.augment s a o') ∧
    (∀ v, (verdictsAt t.resolutions i a).getLast? = some v → v.chosen = t.actionAt i a) ∧
    (verdictsAt t.resolutions i a).Pairwise fun v w => v.pair = w.pair → ∃ next prod,
      w = ⟨.reduce prod, .shift next, .reduce prod⟩ ∧ v.chosen = .reduce prod ∧
      ∃ s, (statesOf g)[i]? = some s ∧ 2 ≤ (s.items g.augment).countP fun item =>
        item.core.next? g.augment = some (.terminal a) := by
  cases hs : (statesOf g)[i]? with
  | none =>
    have hnil : verdictsAt t.resolutions i a = [] := by
      refine verdictsAt_eq_nil fun r hr => ?_
      have := lt_of_mem_resolutions ht hr
      have := Array.getElem?_eq_none_iff.1 hs
      omega
    simp [hnil]
  | some s =>
    obtain ⟨cell, haction, hcell⟩ := exists_recorded hg ht hs a
    have hcandidate : ∀ {o}, o ∈ offersTo a (offers g.augment s) ↔ Candidate g.augment s a o :=
      mem_offersTo.trans (mem_offers_iff hg hs)
    refine ⟨⟨fun hne => ?_, ?_⟩, ?_, hcell.once.imp fun hrepeats hpair => ?_⟩
    · obtain ⟨v, hv⟩ := List.exists_mem_of_ne_nil _ hne
      obtain ⟨o, ho, o', ho', hdiff, -⟩ := hcell.between v hv
      exact ⟨s, rfl, o, o', hdiff, hcandidate.1 ho, hcandidate.1 ho'⟩
    · rintro ⟨s', hs', o, o', hdiff, ho, ho'⟩
      obtain rfl : s = s' := Option.some.inj hs'
      exact hcell.complete o (hcandidate.2 ho) o' (hcandidate.2 ho') hdiff
    · rw [haction]
      exact hcell.last
    · obtain ⟨next, prod, hw, hv, hcount⟩ := hrepeats hpair
      rw [count_offersTo] at hcount
      exact ⟨next, prod, hw, hv, s, rfl, hcount.trans (count_shift_le _ s next _)⟩

end Tables

/-- The symbols and the group of sums that may end with an `x`. -/
def Draft.additions : Draft :=
  let d := (Draft.empty.terminal "n" (.char 'n') false).1
  let d := (d.terminal "+" (.char '+') false).1
  let d := (d.terminal "x" (.char 'x') false).1
  let d := (d.nonterminal "E").1
  (d.precGroup .left [1]).1

/-- The productions `E = E + E`, `E = E + x` and `E = n`. -/
def Production.additions : List Production :=
  [⟨0, [.nonterminal 0, .terminal 1, .nonterminal 0], none⟩,
    ⟨0, [.nonterminal 0, .terminal 1, .terminal 2], none⟩, ⟨0, [.terminal 0], none⟩]

theorem Draft.declared_additions : Draft.additions.Declared :=
  .precGroup (.nonterminal (.terminal (.terminal (.terminal .empty _ _ _) _ _ _) _ _ _) _) _ _

namespace Tables

/-- After `E + E` two items call for `+`, one before and one behind the item that has been read. -/
theorem exists_build_additions : ∃ (g : Grammar) (t : Tables), g.WellFormed ∧ build g = .ok t ∧
    t.resolutions = [⟨4, 1, ⟨.shift 3, .reduce 0, .reduce 0⟩⟩,
      ⟨4, 1, ⟨.reduce 0, .shift 3, .reduce 0⟩⟩] := by
  obtain ⟨g, hbuild, hresolutions⟩ := exists_ok
    (x := (Draft.additions.produceAll Production.additions).build 0)
    (P := fun g => (build g).toOption.map resolutions = some [⟨4, 1, ⟨.shift 3, .reduce 0, .reduce 0⟩⟩,
      ⟨4, 1, ⟨.reduce 0, .shift 3, .reduce 0⟩⟩]) (by decide +kernel)
  obtain ⟨t, ht, hresolutions⟩ := Option.map_eq_some_iff.1 hresolutions
  exact ⟨g, t, (Draft.declared_additions.produceAll _).consistent.wellFormed hbuild,
    eq_ok_of_toOption ht, hresolutions⟩

/-- The entries of the sums that may end with an `x`. -/
theorem resolutions_recorded_additions : ∃ (g : Grammar) (t : Tables), g.WellFormed ∧
    build g = .ok t ∧ (verdictsAt t.resolutions 4 1).length = 2 ∧
    (verdictsAt t.resolutions 4 1 ≠ [] ↔ ∃ s, (statesOf g)[4]? = some s ∧ ∃ o o', o ≠ o' ∧
      Candidate g.augment s 1 o ∧ Candidate g.augment s 1 o') ∧
    (∀ v, (verdictsAt t.resolutions 4 1).getLast? = some v → v.chosen = t.actionAt 4 1) ∧
    (verdictsAt t.resolutions 4 1).Pairwise fun v w => v.pair = w.pair → ∃ next prod,
      w = ⟨.reduce prod, .shift next, .reduce prod⟩ ∧ v.chosen = .reduce prod ∧
      ∃ s, (statesOf g)[4]? = some s ∧ 2 ≤ (s.items g.augment).countP fun item =>
        item.core.next? g.augment = some (.terminal 1) := by
  obtain ⟨g, t, hg, ht, hresolutions⟩ := exists_build_additions
  refine ⟨g, t, hg, ht, ?_, resolutions_recorded hg ht 4 1⟩
  rw [hresolutions]
  rfl

/-- The same two actions of the same cell are recorded twice. -/
theorem recorded_twice : ∃ (g : Grammar) (t : Tables), g.WellFormed ∧ build g = .ok t ∧
    t.resolutions = [⟨4, 1, ⟨.shift 3, .reduce 0, .reduce 0⟩⟩,
      ⟨4, 1, ⟨.reduce 0, .shift 3, .reduce 0⟩⟩] ∧
    ¬ t.resolutions.Pairwise fun r r' => r.state = r'.state → r.terminal = r'.terminal →
      r.verdict.pair ≠ r'.verdict.pair := by
  obtain ⟨g, t, hg, ht, hresolutions⟩ := exists_build_additions
  refine ⟨g, t, hg, ht, hresolutions, ?_⟩
  rw [hresolutions]
  simp [Verdict.pair]

end Tables

end ShiftReduce
