import ShiftReduce.Proofs.Parser.Completeness
import ShiftReduce.Proofs.Parser.Recovery

/-!
# Recoveries that come to nothing

A recovery has come to nothing if the parse ends in a syntax error before another token is shifted. If it
ends in the recovery itself, the error that was to be recovered from is returned. But if the parser goes
on and reduces something, the token that it goes on with may lose its action by that. All that is left of
the input is then discarded, and what is returned is a new error: that the input ends where it must not
(`Blueprint.Declared.failed_recovery`). `Parser.forgotten_mistake` is a parse that forgets its first error
in this way.
-/

namespace ShiftReduce

/-- Whether a token was shifted. -/
def Move.isShift : Move → Bool
  | shift .. => true
  | _ => false

namespace Parser

variable {α : Type} {p : Parser α} {input : String} {c c' : Config α} {moves : List Move}
  {result : Step α} {e e' : ParseError} {fuel : Nat} {o : Outcome α}

/-- What a run from a configuration comes to is what the parse that goes through it comes to. -/
theorem Reached.exists_ends (h : p.Reached input c) (hrun : p.run input fuel c = some o) :
    ∃ before, p.Ends input ⟨before ++ o.moves, o.result⟩ := by
  induction h generalizing fuel o with
  | start hnext => exact ⟨[], ends_of_run hnext hrun⟩
  | @step c c' moves _ hstep ih =>
    have hrun' : p.run input (fuel + 1) c = some ⟨moves ++ o.moves, o.result⟩ := by
      rw [run_of_next hstep, hrun, Option.map_some]
    obtain ⟨before, hends⟩ := ih hrun'
    exact ⟨before ++ moves, by rwa [List.append_assoc]⟩

/-! ### The recovery -/

/-- Discarding tokens reduces nothing. -/
theorem Discarded.reduced_eq_none {state : Nat} {left : List (Except LexError Token)}
    {result : Except ParseError (Token × Cursor)}
    (h : p.Discarded input state e left (moves, result)) : ∀ m ∈ moves, m.reduced? = none := by
  have hdiscards : ∀ {skipped : List Token}, ∀ m ∈ skipped.map (fun t => Move.discard t.text),
      m.reduced? = none := by
    intro skipped m hm
    obtain ⟨t, -, rfl⟩ := List.mem_map.1 hm
    rfl
  cases h with
  | found _ _ _ _ => exact hdiscards
  | ended _ _ _ _ _ => exact hdiscards
  | stray _ _ _ _ _ => exact hdiscards

/-- A recovery reduces nothing. -/
theorem Proper.reduced_of_recover (hp : p.Proper) (h : p.recover input c e = (moves, result)) :
    ∀ m ∈ moves, m.reduced? = none := by
  rw [Parser.recover] at h
  split at h
  · obtain ⟨rfl, -⟩ := Prod.mk.inj h
    exact fun m hm => absurd hm List.not_mem_nil
  · split at h
    · obtain ⟨rfl, -⟩ := Prod.mk.inj h
      exact fun m hm => absurd hm List.not_mem_nil
    · next state next hpoint =>
      split at h
      · obtain ⟨rfl, -⟩ := Prod.mk.inj h
        exact List.forall_mem_singleton.2 rfl
      · obtain ⟨rfl, -⟩ := Prod.mk.inj h
        have hdiscarded : p.Discarded input next e (p.unread c.token c.ahead)
            (p.discard input next e c.token c.ahead) := hp.discarded next e c.token c.ahead
        exact List.forall_mem_cons.2 ⟨rfl, hdiscarded.reduced_eq_none⟩

/-- The token that a recovery goes on with has an action. -/
theorem Proper.action_of_recover (hp : p.Proper) (h : p.recover input c e = (moves, .next c')) :
    p.tables.actionAt (p.top c'.stack) c'.token.terminal ≠ .error ∧ c'.shifted = false := by
  obtain ⟨terminal, stack, state, next, value, moves', token, ahead, -, -, -, hdiscard, -, rfl⟩ :=
    recover_eq_next h
  have hdiscarded : p.Discarded input next e (p.unread c.token c.ahead)
      (p.discard input next e c.token c.ahead) := hp.discarded next e c.token c.ahead
  rw [hdiscard] at hdiscarded
  cases hdiscarded with
  | found skipped _ _ haction => exact ⟨haction, rfl⟩

/-! ### After the recovery -/

/-- Only a shift ends the time after a recovery. -/
theorem shifted_of_step (hstep : p.step input c = (moves, .next c')) (hshifted : c.shifted = false)
    (hmoves : ∀ m ∈ moves, m.isShift = false) : c'.shifted = false := by
  rcases step_cases hstep with ⟨next, -, rfl, -⟩ | ⟨prod, -, -, hreduce⟩ | ⟨-, hstumble⟩
  · exact absurd (hmoves _ List.mem_cons_self) (by simp [Move.isShift])
  · obtain ⟨value, next, -, -, rfl⟩ := reduce_eq_next hreduce
    exact hshifted
  · rcases stumble_eq_next hstumble with ⟨hshifted', -⟩ | ⟨token, ahead, -, -, -, -, rfl⟩
    · exact absurd (hshifted.symm.trans hshifted') (by simp)
    · exact hshifted

/-- A lexical error and a refusal are no syntax errors. -/
theorem Fails.eq_of_isSyntax (h : p.Fails input c e) (he : e.IsSyntax) :
    p.tables.actionAt (p.top c.stack) c.token.terminal = .error ∧
      e = p.syntaxError input (p.top c.stack) c.token := by
  cases h with
  | stray _ => exact he.elim
  | unexpected haction => exact ⟨haction, rfl⟩
  | refused _ _ _ _ => exact he.elim

/-- The time after a recovery ends in a syntax error only at the end of the input. -/
theorem Safe.stuck_of_step (hp : p.Proper) (h : p.Safe input c) (hshifted : c.shifted = false)
    (hstep : p.step input c = (moves, .done (.error e))) (he : e.IsSyntax) :
    p.tables.actionAt (p.top c.stack) c.token.terminal = .error ∧
      c.token.terminal = p.tables.eof ∧ e = p.syntaxError input (p.top c.stack) c.token := by
  obtain ⟨haction, heq⟩ := (h.fails_of_step hp hstep).eq_of_isSyntax he
  refine ⟨haction, ?_, heq⟩
  by_contra hne
  -- otherwise the next token is looked for, which fails at a stray character only
  rw [step, haction] at hstep
  simp only [stumble, hshifted, Bool.false_eq_true, if_false, if_neg hne] at hstep
  have hnext := (Prod.mk.inj hstep).2
  split at hnext
  · next e' hstray =>
    obtain rfl : e' = e := Except.error.inj (Step.done.inj hnext)
    rw [hp.eof] at hne
    obtain ⟨le, -, rfl⟩ := stray_of_nextToken hne hstray
    exact he.elim
  · exact absurd hnext (by simp)

/-- A run after a recovery that shifts nothing and ends in a syntax error does so at the end of the
input. -/
theorem Reached.stuck_of_run (hp : p.Proper) (h : p.Reached input c) (hshifted : c.shifted = false)
    (hrun : p.run input fuel c = some o) (hresult : o.result = .error e) (he : e.IsSyntax)
    (hmoves : ∀ m ∈ o.moves, m.isShift = false) :
    ∃ c', p.Reached input c' ∧ c'.shifted = false ∧
      p.tables.actionAt (p.top c'.stack) c'.token.terminal = .error ∧
      c'.token.terminal = p.tables.eof ∧ e = p.syntaxError input (p.top c'.stack) c'.token := by
  induction fuel generalizing c o with
  | zero => exact absurd hrun (by simp [Parser.run])
  | succ fuel ih =>
    rw [Parser.run] at hrun
    split at hrun
    · next moves result hstep =>
      obtain rfl := Option.some.inj hrun
      simp only at hresult
      rw [hresult] at hstep
      exact ⟨c, h, hshifted, (h.safe hp).stuck_of_step hp hshifted hstep he⟩
    · next moves c' hstep =>
      obtain ⟨o', ho', rfl⟩ := Option.map_eq_some_iff.1 hrun
      obtain ⟨hfirst, hrest⟩ := List.forall_mem_append.1 hmoves
      exact ih (h.step hstep) (shifted_of_step hstep hshifted hfirst) ho' hresult hrest

/-- The first step's moves are moves of the run. -/
theorem mem_moves_of_step {m : Move} (hrun : p.run input fuel c = some o)
    (hm : m ∈ (p.step input c).1) : m ∈ o.moves := by
  cases fuel with
  | zero => exact absurd hrun (by simp [Parser.run])
  | succ fuel =>
    rw [Parser.run] at hrun
    split at hrun
    · next hstep =>
      obtain rfl := Option.some.inj hrun
      rwa [hstep] at hm
    · next hstep =>
      obtain ⟨o', -, rfl⟩ := Option.map_eq_some_iff.1 hrun
      rw [hstep] at hm
      exact List.mem_append_left _ hm

/-- If the token has an action and nothing is shifted, a run that fails begins with a reduction. -/
theorem Reached.exists_reduced_of_run (hp : p.Proper) (h : p.Reached input c)
    (haction : p.tables.actionAt (p.top c.stack) c.token.terminal ≠ .error)
    (hrun : p.run input fuel c = some o) (hresult : o.result = .error e)
    (hmoves : ∀ m ∈ o.moves, m.isShift = false) : ∃ m ∈ o.moves, m.reduced? ≠ none := by
  cases hcase : p.tables.actionAt (p.top c.stack) c.token.terminal with
  | shift next =>
    have hshift := hmoves _ (mem_moves_of_step hrun
      (by rw [Parser.step, hcase]; exact List.mem_singleton_self _))
    exact absurd hshift (by simp [Move.isShift])
  | reduce prod =>
    exact ⟨_, mem_moves_of_step hrun (by rw [Parser.step, hcase]; exact List.mem_singleton_self _),
      by simp [Move.reduced?]⟩
  | accept =>
    obtain ⟨-, state, v, hstack⟩ := (h.safe hp).accept hcase
    have hstep : p.step input c = ([.accept (p.top c.stack)], .done (.ok v)) := by
      rw [Parser.step, hcase]
      simp only [finish, hstack]
    cases fuel with
    | zero => exact absurd hrun (by simp [Parser.run])
    | succ fuel =>
      obtain rfl := Option.some.inj ((run_of_done hstep fuel).symm.trans hrun)
      exact absurd hresult (by simp)
  | error => exact absurd hcase haction

end Parser

theorem Outcome.reductions_eq_nil_iff {α : Type} {o : Outcome α} :
    o.reductions = [] ↔ ∀ m ∈ o.moves, m.reduced? = none :=
  List.filterMap_eq_nil_iff

/-- What a parse returns if a recovery has come to nothing, as it ends in a syntax error and no token was
shifted after the recovery. If nothing was reduced either, it is the error that was to be recovered from.
Otherwise it is that the input ends in the state to which the reductions have led. -/
theorem Blueprint.Declared.failed_recovery {α : Type} {b : Blueprint α} (hb : b.Declared)
    {p : Parser α} (hp : b.build = .ok p) {input : String} {c : Config α} (hc : p.Reached input c)
    (haction : p.tables.actionAt (p.top c.stack) c.token.terminal = .error)
    (hshifted : c.shifted = true) {fuel : Nat} {o : Outcome α} (hrun : p.run input fuel c = some o)
    {e : ParseError} (hresult : o.result = .error e) (he : e.IsSyntax)
    (hmoves : ∀ m ∈ o.moves, m.isShift = false) :
    (∃ before, p.Ends input ⟨before ++ o.moves, .error e⟩) ∧
    (o.reductions = [] → e = p.syntaxError input (p.top c.stack) c.token) ∧
    (o.reductions ≠ [] → ∃ c', p.Reached input c' ∧ c'.shifted = false ∧
      p.tables.actionAt (p.top c'.stack) c'.token.terminal = .error ∧
      c'.token.terminal = p.tables.eof ∧ e = p.syntaxError input (p.top c'.stack) c'.token) := by
  have hproper := hb.proper hp
  refine ⟨hresult ▸ hc.exists_ends hrun, ?_⟩
  rw [ne_eq, Outcome.reductions_eq_nil_iff]
  cases fuel with
  | zero => exact absurd hrun (by simp [Parser.run])
  | succ fuel =>
    cases hstep : p.step input c with
    | mk moves result =>
      have hrecover := (Parser.step_of_error haction hshifted).symm.trans hstep
      have hquiet := hproper.reduced_of_recover hrecover
      cases result with
      | done result =>
        rw [Parser.run_of_done hstep] at hrun
        obtain rfl := Option.some.inj hrun
        obtain rfl : result = .error e := hresult
        have heq := (((hc.safe hproper).fails_of_step hproper hstep).eq_of_isSyntax he).2
        exact ⟨fun _ => heq, fun hreduced => absurd hquiet hreduced⟩
      | next c' =>
        rw [Parser.run_of_next hstep] at hrun
        obtain ⟨o', ho', rfl⟩ := Option.map_eq_some_iff.1 hrun
        have hrest := (List.forall_mem_append.1 hmoves).2
        obtain ⟨haction', hunshifted⟩ := hproper.action_of_recover hrecover
        have hc' := hc.step hstep
        refine ⟨fun hnone => ?_, fun _ => hc'.stuck_of_run hproper hunshifted ho' hresult he hrest⟩
        obtain ⟨m, hm, hreduced⟩ := hc'.exists_reduced_of_run hproper haction' ho' hresult hrest
        exact absurd (hnone m (List.mem_append_right _ hm)) hreduced

/-! ### A wrong middle -/

/-- Declarations for a parser of `a A x` and `b A y`, of which the middle `A` is wrong input. -/
def Blueprint.middle : Blueprint String :=
  let b : Blueprint String := .empty
  let b := b.errorToken.1
  let b := b.setLiteralValue id
  let b := (b.nonterminal "S").1
  let b := (b.nonterminal "A").1
  let b := (b.production 0 [.terminal (.literal "a"), .nonterminal 1, .terminal (.literal "x")]).1
  let b := (b.production 0 [.terminal (.literal "b"), .nonterminal 1, .terminal (.literal "y")]).1
  (b.production 1 [.terminal (.declared 0)]).1

theorem Blueprint.declared_middle : Blueprint.middle.Declared :=
  .production (.production (.production (.nonterminal (.nonterminal (.setLiteralValue
    (.errorToken .empty) _) _) _) _ _) _ _) _ _

/-- After `a` a second mistake `b` is discarded, and up to the end of the input nothing can be reduced. -/
theorem Blueprint.Declared.failed_recovery_middle : ∃ p c o e, Blueprint.middle.build = .ok p ∧
    p.Reached "ab" c ∧ p.run "ab" 4 c = some o ∧ o.result = .error e ∧
    (∃ before, p.Ends "ab" ⟨before ++ o.moves, .error e⟩) ∧
    e = p.syntaxError "ab" (p.top c.stack) c.token := by
  obtain ⟨p, hp, hafter⟩ := Blueprint.exists_build (b := Blueprint.middle)
    (P := fun p => ((p.configAfter "ab" 1).bind fun c => (p.run "ab" 4 c).map fun o =>
      (p.tables.actionAt (p.top c.stack) c.token.terminal, c.shifted, o.moves,
        o.error?)) = some (.error, true, [.shiftError 2 5, .discard "b"],
          some (.unexpectedToken "'b'" "b" ⟨1, 2⟩ ⟨1, 2⟩ 2 []))) (by decide +kernel)
  obtain ⟨c, hc, hafter⟩ := Option.bind_eq_some_iff.1 hafter
  obtain ⟨o, ho, heq⟩ := Option.map_eq_some_iff.1 hafter
  simp only [Prod.mk.injEq] at heq
  obtain ⟨haction, hshifted, hmoves, hfailed⟩ := heq
  have hresult := Outcome.error?_eq_some_iff.1 hfailed
  have hreached := Parser.reached_of_configAfter hc
  obtain ⟨hends, hsame, -⟩ := Blueprint.declared_middle.failed_recovery hp hreached haction hshifted ho
    hresult trivial (by rw [hmoves]; decide)
  exact ⟨p, c, o, _, hp, hreached, ho, hresult, hends, hsame (by rw [Outcome.reductions, hmoves]; rfl)⟩

/-- After `a` the mistake `y` is one that may follow `A` elsewhere. The parser goes on with it, reduces
`A`, discards the mistake after all, and returns that the input has ended. -/
theorem Parser.forgotten_mistake : ∃ b : Blueprint String, b.Declared ∧ ∃ p c o, b.build = .ok p ∧
    p.Reached "ay" c ∧ p.tables.actionAt (p.top c.stack) c.token.terminal = .error ∧
    c.shifted = true ∧ p.run "ay" 4 c = some o ∧ (∀ m ∈ o.moves, m.isShift = false) ∧
    p.syntaxError "ay" (p.top c.stack) c.token =
      .unexpectedToken "'y'" "y" ⟨1, 2⟩ ⟨1, 2⟩ 2 [] ∧
    o.result = .error (.unexpectedEnd ⟨2, 2⟩ ⟨1, 3⟩ 4 ["'x'"]) ∧
    o.result ≠ .error (p.syntaxError "ay" (p.top c.stack) c.token) := by
  refine ⟨Blueprint.middle, Blueprint.declared_middle, ?_⟩
  obtain ⟨p, hp, hafter, hmistake⟩ := Blueprint.exists_build (b := Blueprint.middle)
    (P := fun p => ((p.configAfter "ay" 1).bind fun c => (p.run "ay" 4 c).map fun o =>
        (p.tables.actionAt (p.top c.stack) c.token.terminal, c.shifted, o.moves, o.error?)) =
          some (.error, true, [.shiftError 2 5, .reduce 2 2, .discardStuck "y"],
            some (.unexpectedEnd ⟨2, 2⟩ ⟨1, 3⟩ 4 ["'x'"])) ∧
      (p.configAfter "ay" 1).map (fun c => p.syntaxError "ay" (p.top c.stack) c.token) =
        some (.unexpectedToken "'y'" "y" ⟨1, 2⟩ ⟨1, 2⟩ 2 [])) (by decide +kernel)
  obtain ⟨c, hc, hafter⟩ := Option.bind_eq_some_iff.1 hafter
  obtain ⟨o, ho, heq⟩ := Option.map_eq_some_iff.1 hafter
  simp only [Prod.mk.injEq] at heq
  obtain ⟨haction, hshifted, hmoves, hfailed⟩ := heq
  rw [hc, Option.map_some, Option.some.injEq] at hmistake
  have hresult := Outcome.error?_eq_some_iff.1 hfailed
  exact ⟨p, c, o, hp, Parser.reached_of_configAfter hc, haction, hshifted, ho,
    by rw [hmoves]; decide, hmistake, hresult, by rw [hresult, hmistake]; simp⟩

end ShiftReduce
