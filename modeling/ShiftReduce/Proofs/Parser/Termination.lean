import ShiftReduce.Proofs.Lalr.Machine
import ShiftReduce.Proofs.Parser.Soundness

/-!
# Parses come to an end

Every parse comes to an end, whatever the input is, if the reductions of the tables do
(`Proper.exists_ends_of_halts`). A step that is not a reduction uses something up (`Parser.budget`): it
reads a token, or it recovers from an error, which it cannot do again before it has shifted a token.
The reductions of the tables come to an end if no conflict of the grammar had to be settled
(`Proper.exists_ends`).
-/

namespace ShiftReduce

open Collection (walk)
open Tables (Stacked topState statesOf Reduces Halts ConflictFree)

namespace Parser

variable {α : Type} {p : Parser α} {input : String} {c c' : Config α} {moves : List Move}

/-- The parse of the input ends with the outcome `o`, if only it may make enough steps. -/
def Ends (p : Parser α) (input : String) (o : Outcome α) : Prop :=
  ∃ enough, ∀ fuel ≥ enough, p.parseWithin fuel input = some o

theorem Ends.unique {o o' : Outcome α} (h : p.Ends input o) (h' : p.Ends input o') : o = o' := by
  obtain ⟨enough, h⟩ := h
  obtain ⟨enough', h'⟩ := h'
  exact Option.some.inj ((h _ (Nat.le_max_left _ _)).symm.trans (h' _ (Nat.le_max_right _ _)))

theorem ends_of_run {token : Token} {ahead : Cursor}
    (hnext : p.nextToken input ⟨0, input.toList⟩ = .ok (token, ahead)) {fuel : Nat} {o : Outcome α}
    (h : p.run input fuel ⟨[], token, ahead, none, true⟩ = some o) : p.Ends input o := by
  refine ⟨fuel, fun fuel' hle => ?_⟩
  rw [parseWithin, hnext]
  exact run_of_le h hle

/-- Twice the number of tokens that have not been read, and one more if a token has been shifted since
the last recovery. -/
def budget (p : Parser α) (c : Config α) : Nat :=
  2 * (p.unread c.token c.ahead).length + c.shifted.toNat

theorem Proper.length_unread_lt (hp : p.Proper) {token token' : Token} {ahead ahead' : Cursor}
    (hne : token.terminal ≠ p.grammar.eof) (hnext : p.nextToken input ahead = .ok (token', ahead')) :
    (p.unread token' ahead').length < (p.unread token ahead).length := by
  rw [unread_of_ne hne, hp.unread_of_nextToken hnext, List.length_cons]
  exact Nat.lt_succ_self _

theorem budget_lt_of_unread_lt
    (h : (p.unread c'.token c'.ahead).length < (p.unread c.token c.ahead).length) :
    p.budget c' < p.budget c := by
  have hle := c'.shifted.toNat_le
  simp only [budget]
  omega

/-- A recovery reads no token a second time, and uses up that a token has been shifted. -/
theorem Proper.budget_recover (hp : p.Proper) {e : ParseError} (hshifted : c.shifted = true)
    (h : p.recover input c e = (moves, .next c')) : p.budget c' < p.budget c := by
  obtain ⟨_, _, _, _, _, _, token, ahead, -, -, -, hdiscard, -, rfl⟩ := recover_eq_next h
  obtain ⟨skipped, hskipped⟩ := hp.unread_of_discard hdiscard
  have hlength := congrArg List.length hskipped
  rw [List.length_append] at hlength
  simp only [budget, hshifted, Bool.toNat_false, Bool.toNat_true]
  omega

/-- Every step keeps the invariant, and it uses something up or reduces. -/
theorem Sound.progress (hp : p.Proper) {tokens : List Token} {forest : List Tree}
    (h : p.Sound input p.grammar.error c tokens forest)
    (hstep : p.step input c = (moves, .next c')) :
    ∃ tokens' forest', p.Sound input p.grammar.error c' tokens' forest' ∧
      (p.budget c' < p.budget c ∨ p.budget c' = p.budget c ∧ c'.token = c.token ∧
        Reduces p.grammar p.tables c.token.terminal (roots p.grammar forest)
          (roots p.grammar forest')) := by
  rcases step_cases hstep with ⟨next, haction, -, hshift⟩ | ⟨prod, haction, -, hreduce⟩ |
    ⟨-, hstumble⟩
  · refine ⟨_, _, h.shift hp haction hshift, Or.inl ?_⟩
    rw [hp.top_eq] at haction
    obtain ⟨value, token, ahead, -, hnext, rfl⟩ := shift_eq_next hshift
    exact budget_lt_of_unread_lt (hp.length_unread_lt
      (hp.made.walk_of_shift hp.wellFormed h.stacked.walk_topState haction).2 hnext)
  · refine ⟨_, _, h.reduce hp haction hreduce, Or.inr ?_⟩
    rw [hp.top_eq] at haction
    obtain ⟨value, next, -, -, rfl⟩ := reduce_eq_next hreduce
    exact ⟨rfl, rfl, h.stacked.reduces hp.wellFormed hp.made haction _⟩
  · obtain ⟨tokens', forest', h'⟩ := h.stumble hp hstumble (Or.inl rfl)
    refine ⟨tokens', forest', h', Or.inl ?_⟩
    rcases stumble_eq_next hstumble with ⟨hshifted, hrecover⟩ |
      ⟨token, ahead, -, heof, hnext, -, rfl⟩
    · exact hp.budget_recover hshifted hrecover
    · rw [hp.eof] at heof
      exact budget_lt_of_unread_lt (hp.length_unread_lt heof hnext)

theorem Proper.conflictFree (hp : p.Proper) (hall : p.grammar.ListsAll)
    (hres : p.tables.resolutions = []) : ConflictFree p.grammar p.tables :=
  { toMade := hp.made, wellFormed := hp.wellFormed, listsAll := hall, resolutions := hres }

/-- A run comes to an end. -/
theorem Sound.exists_run (hp : p.Proper)
    (hhalts : ∀ {a : Nat} {γ : List Symbol} {i : Nat}, walk (statesOf p.grammar) 0 γ = some i →
      Halts p.grammar p.tables a γ) {tokens : List Token} {forest : List Tree}
    (h : p.Sound input p.grammar.error c tokens forest) : ∃ fuel o, p.run input fuel c = some o := by
  -- the induction is on what is not used up yet, and then on the reductions before the token
  induction hn : p.budget c using Nat.strong_induction_on generalizing c tokens forest with
  | _ n ihbudget =>
    obtain ⟨a, ha⟩ : ∃ a, c.token.terminal = a := ⟨_, rfl⟩
    have hhalts := hhalts (a := a) h.stacked.walk_topState
    generalize hγ : roots p.grammar forest = γ at hhalts
    induction hhalts generalizing c tokens forest with
    | intro γ _ ih =>
      cases hstep : p.step input c with
      | mk moves result =>
        cases result with
        | done result => exact ⟨1, _, run_of_done hstep 0⟩
        | next c' =>
          obtain ⟨tokens', forest', h', hprogress⟩ := h.progress hp hstep
          have hrun : ∃ fuel o, p.run input fuel c' = some o := by
            rcases hprogress with hlt | ⟨heq, htoken, hreduces⟩
            · exact ihbudget (p.budget c') (hn ▸ hlt) h' rfl
            · rw [ha, hγ] at hreduces
              exact ih _ hreduces h' (heq.trans hn) (htoken ▸ ha) rfl
          obtain ⟨fuel, o, ho⟩ := hrun
          exact ⟨fuel + 1, _, by rw [run_of_next hstep, ho, Option.map_some]⟩

/-- Every parse comes to an end if the reductions of the tables do. -/
theorem Proper.exists_ends_of_halts (hp : p.Proper)
    (hhalts : ∀ {a : Nat} {γ : List Symbol} {i : Nat}, walk (statesOf p.grammar) 0 γ = some i →
      Halts p.grammar p.tables a γ) (input : String) : ∃ o, p.Ends input o := by
  cases hnext : p.nextToken input ⟨0, input.toList⟩ with
  | error e => exact ⟨⟨[], .error e⟩, 0, fun fuel _ => by rw [parseWithin, hnext]⟩
  | ok found =>
    obtain ⟨token, ahead⟩ := found
    obtain ⟨fuel, o, ho⟩ := (hp.sound_start hnext).exists_run hp hhalts
    exact ⟨o, ends_of_run hnext ho⟩

/-- Every parse comes to an end if no conflict had to be settled. -/
theorem Proper.exists_ends (hp : p.Proper) (hall : p.grammar.ListsAll)
    (hres : p.tables.resolutions = []) (input : String) : ∃ o, p.Ends input o :=
  hp.exists_ends_of_halts (hp.conflictFree hall hres).halts input

end Parser

end ShiftReduce
