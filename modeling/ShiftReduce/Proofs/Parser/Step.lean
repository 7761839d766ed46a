import ShiftReduce.Parser.Run

/-!
# What a step can do

A step that does not end the parse shifts a token, reduces a production, recovers from an error, or
discards a token after a recovery. Each of the functions that a step is made of has its lemma, which
says what the next configuration is, and `Parser.step_cases` puts them together. A step that ends the
parse with a value accepts (`Parser.accept_of_step`).

`Parser.Reached` are the configurations that a parse goes through. A parse that has come to an end ends in
the same way if it may make more steps (`Parser.run_of_le`).
-/

namespace ShiftReduce

/-- The error with which a parse has ended, if it has failed. -/
def Outcome.error? {α : Type} (o : Outcome α) : Option ParseError :=
  match o.result with
  | .ok _ => none
  | .error e => some e

theorem Outcome.error?_eq_some_iff {α : Type} {o : Outcome α} {e : ParseError} :
    o.error? = some e ↔ o.result = .error e := by
  rw [error?]
  split
  · next heq => simp [heq]
  · next heq => simp [heq]

namespace Parser

variable {α : Type} {p : Parser α} {input : String} {c c' : Config α} {moves : List Move}

theorem shift_eq_next {next : Nat} (h : p.shift input c next = .next c') : ∃ value token ahead,
    p.valueOf c.token.terminal c.token.text = some value ∧
    p.nextToken input c.ahead = .ok (token, ahead) ∧
    c' = ⟨(next, value) :: c.stack, token, ahead, c.recovered, true⟩ := by
  rw [Parser.shift] at h
  split at h
  · exact absurd h (by simp)
  · next value hvalue =>
    split at h
    · exact absurd h (by simp)
    · next token ahead hnext => exact ⟨value, token, ahead, hvalue, hnext, (Step.next.inj h).symm⟩

theorem reduce_eq_next {prod : Nat} (h : p.reduce input c prod = .next c') : ∃ value next,
    p.reduceValue input prod (if p.usesError prod then c.recovered else none) c.token
      ((c.stack.take (p.arity prod)).map Prod.snd).reverse = .ok value ∧
    p.tables.gotoAt (p.top (c.stack.drop (p.arity prod))) (p.target prod) = some next ∧
    c' = ⟨(next, value) :: c.stack.drop (p.arity prod), c.token, c.ahead,
      if p.usesError prod then none else c.recovered, c.shifted⟩ := by
  simp only [Parser.reduce] at h
  split at h
  · exact absurd h (by simp)
  · next value hvalue =>
    split at h
    · next next hnext => exact ⟨value, next, hvalue, hnext, (Step.next.inj h).symm⟩
    · exact absurd h (by simp)

theorem recover_eq_next {e : ParseError} (h : p.recover input c e = (moves, .next c')) :
    ∃ terminal stack state next value moves' token ahead,
      p.grammar.error = some terminal ∧
      p.recoveryPoint terminal c.stack = some (stack, state, next) ∧
      p.valueOf terminal c.token.text = some value ∧
      p.discard input next e c.token c.ahead = (moves', .ok (token, ahead)) ∧
      moves = .shiftError state next :: moves' ∧
      c' = ⟨(next, value) :: stack, token, ahead, some e, false⟩ := by
  rw [Parser.recover] at h
  split at h
  · exact absurd h (by simp)
  · next terminal herror =>
    split at h
    · exact absurd h (by simp)
    · next stack state next hpoint =>
      split at h
      · exact absurd h (by simp)
      · next value hvalue =>
        cases hdiscard : p.discard input next e c.token c.ahead with
        | mk moves' result =>
          rw [hdiscard] at h
          obtain ⟨hmoves, hstep⟩ := Prod.mk.inj h
          cases result with
          | error e' => exact absurd hstep (by simp)
          | ok found =>
            obtain ⟨token, ahead⟩ := found
            exact ⟨terminal, stack, state, next, value, moves', token, ahead, herror, hpoint, hvalue,
              hdiscard, hmoves.symm, (Step.next.inj hstep).symm⟩

theorem stumble_eq_next (h : p.stumble input c = (moves, .next c')) :
    (c.shifted = true ∧
      p.recover input c (p.syntaxError input (p.top c.stack) c.token) = (moves, .next c')) ∨
    ∃ token ahead, c.shifted = false ∧ c.token.terminal ≠ p.tables.eof ∧
      p.nextToken input c.ahead = .ok (token, ahead) ∧ moves = [.discardStuck c.token.text] ∧
      c' = { c with token := token, ahead := ahead } := by
  rw [Parser.stumble] at h
  split at h
  · next hshifted => exact Or.inl ⟨hshifted, h⟩
  · next hshifted =>
    split at h
    · exact absurd h (by simp)
    · next heof =>
      obtain ⟨hmoves, hstep⟩ := Prod.mk.inj h
      split at hstep
      · exact absurd hstep (by simp)
      · next token ahead hnext =>
        rw [Bool.not_eq_true] at hshifted
        exact Or.inr ⟨token, ahead, hshifted, heof, hnext, hmoves.symm, (Step.next.inj hstep).symm⟩

/-- What a step can do that does not end the parse. -/
theorem step_cases (h : p.step input c = (moves, .next c')) :
    (∃ next, p.tables.actionAt (p.top c.stack) c.token.terminal = .shift next ∧
      moves = [.shift (p.top c.stack) next c.token.terminal c.token.text] ∧
      p.shift input c next = .next c') ∨
    (∃ prod, p.tables.actionAt (p.top c.stack) c.token.terminal = .reduce prod ∧
      moves = [.reduce (p.top (c.stack.drop (p.arity prod))) prod] ∧
      p.reduce input c prod = .next c') ∨
    p.tables.actionAt (p.top c.stack) c.token.terminal = .error ∧
      p.stumble input c = (moves, .next c') := by
  rw [Parser.step] at h
  split at h
  · next next haction =>
    obtain ⟨hmoves, hstep⟩ := Prod.mk.inj h
    exact Or.inl ⟨next, haction, hmoves.symm, hstep⟩
  · next prod haction =>
    obtain ⟨hmoves, hstep⟩ := Prod.mk.inj h
    exact Or.inr (Or.inl ⟨prod, haction, hmoves.symm, hstep⟩)
  · exact absurd h (by simp)
  · next haction => exact Or.inr (Or.inr ⟨haction, h⟩)

/-! ### The end -/

theorem shift_ne_done {next : Nat} {v : α} : p.shift input c next ≠ .done (.ok v) := by
  rw [Parser.shift]
  split
  · simp
  · split
    · simp
    · simp

theorem reduce_ne_done {prod : Nat} {v : α} : p.reduce input c prod ≠ .done (.ok v) := by
  simp only [Parser.reduce]
  split
  · simp
  · split
    · simp
    · simp

theorem recover_ne_done {e : ParseError} {v : α} : (p.recover input c e).2 ≠ .done (.ok v) := by
  rw [Parser.recover]
  split
  · simp
  · split
    · simp
    · split
      · simp
      · simp only
        split
        · simp
        · simp

theorem stumble_ne_done {v : α} : (p.stumble input c).2 ≠ .done (.ok v) := by
  rw [Parser.stumble]
  split
  · exact recover_ne_done
  · split
    · simp
    · simp only
      split
      · simp
      · simp

/-- A parse ends with a value only by accepting. -/
theorem accept_of_step {v : α} (h : p.step input c = (moves, .done (.ok v))) :
    p.tables.actionAt (p.top c.stack) c.token.terminal = .accept ∧ p.finish input c = .ok v := by
  rw [Parser.step] at h
  split at h
  · exact absurd (Prod.mk.inj h).2 shift_ne_done
  · exact absurd (Prod.mk.inj h).2 reduce_ne_done
  · next haction => exact ⟨haction, Step.done.inj (Prod.mk.inj h).2⟩
  · exact absurd (congrArg Prod.snd h) stumble_ne_done

/-! ### Runs -/

/-- The configurations that a parse of the input goes through. -/
inductive Reached (p : Parser α) (input : String) : Config α → Prop
  | start {token : Token} {ahead : Cursor}
    (h : p.nextToken input ⟨0, input.toList⟩ = .ok (token, ahead)) :
    Reached p input ⟨[], token, ahead, none, true⟩
  | step {c c' : Config α} {moves : List Move} (h : Reached p input c)
    (hstep : p.step input c = (moves, .next c')) : Reached p input c'

/-- The configuration after the given number of steps, unless the parse has ended by then. -/
def configAfter (p : Parser α) (input : String) : Nat → Option (Config α)
  | 0 =>
    match p.nextToken input ⟨0, input.toList⟩ with
    | .ok (token, ahead) => some ⟨[], token, ahead, none, true⟩
    | .error _ => none
  | n + 1 =>
    (configAfter p input n).bind fun c =>
      match p.step input c with
      | (_, .next c') => some c'
      | (_, .done _) => none

theorem exists_step_of_configAfter {n : Nat} (h : p.configAfter input (n + 1) = some c') :
    ∃ c moves, p.configAfter input n = some c ∧ p.step input c = (moves, .next c') := by
  obtain ⟨c, hc, hstep⟩ := Option.bind_eq_some_iff.1 h
  split at hstep
  · next moves c'' heq =>
    obtain rfl : c'' = c' := Option.some.inj hstep
    exact ⟨c, moves, hc, heq⟩
  · exact absurd hstep (by simp)

theorem reached_of_configAfter {n : Nat} (h : p.configAfter input n = some c) :
    p.Reached input c := by
  induction n generalizing c with
  | zero =>
    rw [configAfter] at h
    split at h
    · next token ahead hnext =>
      rw [← Option.some.inj h]
      exact .start hnext
    · exact absurd h (by simp)
  | succ n ih =>
    obtain ⟨c₀, moves, hc₀, hstep⟩ := exists_step_of_configAfter h
    exact .step (ih hc₀) hstep

theorem run_of_done {result : Except ParseError α} (h : p.step input c = (moves, .done result))
    (fuel : Nat) : p.run input (fuel + 1) c = some ⟨moves, result⟩ := by
  rw [Parser.run, h]

theorem run_of_next (h : p.step input c = (moves, .next c')) (fuel : Nat) :
    p.run input (fuel + 1) c =
      (p.run input fuel c').map fun o => { o with moves := moves ++ o.moves } := by
  rw [Parser.run, h]

theorem run_of_le {fuel fuel' : Nat} {o : Outcome α} (h : p.run input fuel c = some o)
    (hle : fuel ≤ fuel') : p.run input fuel' c = some o := by
  induction fuel generalizing c fuel' o with
  | zero => exact absurd h (by simp [Parser.run])
  | succ fuel ih =>
    obtain ⟨fuel', rfl⟩ := Nat.exists_eq_add_of_le' hle
    cases hstep : p.step input c with
    | mk moves result =>
      cases result with
      | done result =>
        rw [run_of_done hstep] at h
        rw [← h]
        exact run_of_done hstep _
      | next c' =>
        rw [run_of_next hstep] at h
        obtain ⟨o', ho', rfl⟩ := Option.map_eq_some_iff.1 h
        rw [← Nat.add_assoc, run_of_next hstep, ih ho' (Nat.le_add_left _ _), Option.map_some]

end Parser

end ShiftReduce
