import ShiftReduce.Proofs.Parser.Safety

/-!
# Where a parser goes on after an error

When a token has no action, a parser gives up the part of its stack that stands above a state with a
shift of the terminal for wrong input, shifts this terminal there, and discards tokens until one has an
action. `Parser.longest_of_recoveryPoint` says that what it keeps of the stack is the longest part that
can be kept in this way, and `Proper.discarded` which tokens it discards.
`Blueprint.Declared.resumes_from_longest` puts the two together.

Only a shift counts. A state in which the tables would first reduce before the terminal for wrong input,
and shift it after that (`Parser.ShiftsAfter`), is given up like any other, so that a parser can fail to
recover although its tables lead to such a shift (`Parser.unreduced_statements`).
-/

namespace ShiftReduce

namespace Parser

variable {α : Type} {p : Parser α} {input : String} {c : Config α} {terminal state : Nat}
  {stack rest : List (Nat × α)}

/-- The state on top of the stack shifts the terminal. -/
def Shifts (p : Parser α) (terminal : Nat) (stack : List (Nat × α)) : Prop :=
  ∃ next, p.tables.actionAt (p.top stack) terminal = .shift next

/-- The tables lead from a stack of states to a shift of the terminal, after any number of
reductions. -/
inductive ShiftsAfter (p : Parser α) (terminal : Nat) : List Nat → Prop
  | shift {states : List Nat} {next : Nat}
    (h : p.tables.actionAt (states.headD p.tables.start) terminal = .shift next) :
    ShiftsAfter p terminal states
  | reduce {states : List Nat} {prod next : Nat}
    (haction : p.tables.actionAt (states.headD p.tables.start) terminal = .reduce prod)
    (hgoto : p.tables.gotoAt ((states.drop (p.arity prod)).headD p.tables.start) (p.target prod) =
      some next)
    (h : ShiftsAfter p terminal (next :: states.drop (p.arity prod))) : ShiftsAfter p terminal states

/-! ### What is kept of the stack -/

theorem recoveryPoint_of_shift {next : Nat}
    (h : p.tables.actionAt (p.top stack) terminal = .shift next) :
    p.recoveryPoint terminal stack = some (stack, p.top stack, next) := by
  cases stack with
  | nil =>
    rw [recoveryPoint, show p.tables.actionAt p.tables.start terminal = .shift next from h]
    rfl
  | cons entry stack =>
    rw [recoveryPoint, show p.tables.actionAt entry.1 terminal = .shift next from h]
    rfl

theorem recoveryPoint_nil (h : ¬ p.Shifts terminal []) : p.recoveryPoint terminal [] = none := by
  rw [recoveryPoint]
  split
  · next next hnext => exact absurd ⟨next, hnext⟩ h
  · rfl

theorem recoveryPoint_cons {entry : Nat × α} (h : ¬ p.Shifts terminal (entry :: stack)) :
    p.recoveryPoint terminal (entry :: stack) = p.recoveryPoint terminal stack := by
  rw [recoveryPoint]
  split
  · next next hnext => exact absurd ⟨next, hnext⟩ h
  · rfl

/-- There is no recovery exactly if no state on the stack shifts the terminal, nor the first one. -/
theorem recoveryPoint_eq_none_iff : p.recoveryPoint terminal stack = none ↔
    ∀ rest, rest <:+ stack → ¬ p.Shifts terminal rest := by
  constructor
  · rintro hnone rest hrest ⟨next, hnext⟩
    induction stack with
    | nil =>
      rw [List.suffix_nil.1 hrest] at hnext
      rw [recoveryPoint_of_shift hnext] at hnone
      exact absurd hnone (by simp)
    | cons entry stack ih =>
      by_cases htop : p.Shifts terminal (entry :: stack)
      · obtain ⟨next', hnext'⟩ := htop
        rw [recoveryPoint_of_shift hnext'] at hnone
        exact absurd hnone (by simp)
      · rw [recoveryPoint_cons htop] at hnone
        rcases List.suffix_cons_iff.1 hrest with rfl | hrest
        · exact htop ⟨next, hnext⟩
        · exact ih hnone hrest
  · intro hnever
    induction stack with
    | nil => exact recoveryPoint_nil (hnever [] List.suffix_rfl)
    | cons entry stack ih =>
      rw [recoveryPoint_cons (hnever _ List.suffix_rfl)]
      exact ih fun rest hrest => hnever rest (hrest.trans (List.suffix_cons entry stack))

/-- What is kept is part of the stack, its top shifts the terminal, and no longer part does. -/
theorem longest_of_recoveryPoint {next : Nat}
    (h : p.recoveryPoint terminal stack = some (rest, state, next)) :
    rest <:+ stack ∧ state = p.top rest ∧ p.tables.actionAt state terminal = .shift next ∧
      ∀ longer, longer <:+ stack → p.Shifts terminal longer → longer <:+ rest := by
  induction stack with
  | nil =>
    by_cases htop : p.Shifts terminal []
    · obtain ⟨next', hnext'⟩ := htop
      rw [recoveryPoint_of_shift hnext'] at h
      obtain ⟨rfl, rfl, rfl⟩ := h
      exact ⟨List.suffix_rfl, rfl, hnext', fun longer hlonger _ => hlonger⟩
    · rw [recoveryPoint_nil htop] at h
      exact absurd h (by simp)
  | cons entry stack ih =>
    by_cases htop : p.Shifts terminal (entry :: stack)
    · obtain ⟨next', hnext'⟩ := htop
      rw [recoveryPoint_of_shift hnext'] at h
      obtain ⟨rfl, rfl, rfl⟩ := h
      exact ⟨List.suffix_rfl, rfl, hnext', fun longer hlonger _ => hlonger⟩
    · rw [recoveryPoint_cons htop] at h
      obtain ⟨hrest, hstate, hnext, hlongest⟩ := ih h
      refine ⟨hrest.trans (List.suffix_cons entry stack), hstate, hnext, ?_⟩
      intro longer hlonger hshifts
      rcases List.suffix_cons_iff.1 hlonger with rfl | hlonger
      · exact absurd hshifts htop
      · exact hlongest longer hlonger hshifts

/-! ### What is discarded -/

/-- What discarding comes to, by the tokens that are left: the tokens before the first one that has an
action in the state are discarded. If there is none, the error stays, and a stray character before it
is an error of its own. -/
inductive Discarded (p : Parser α) (input : String) (state : Nat) (e : ParseError)
    (left : List (Except LexError Token)) :
    List Move × Except ParseError (Token × Cursor) → Prop
  | found (skipped : List Token) {token : Token} {ahead : Cursor}
    (h : left = skipped.map .ok ++ p.unread token ahead)
    (hskipped : ∀ t ∈ skipped, p.tables.actionAt state t.terminal = .error)
    (htoken : p.tables.actionAt state token.terminal ≠ .error) :
    Discarded p input state e left (skipped.map fun t => .discard t.text, .ok (token, ahead))
  | ended (skipped : List Token) (stop : Token) (h : left = skipped.map .ok ++ [.ok stop])
    (hskipped : ∀ t ∈ skipped, p.tables.actionAt state t.terminal = .error)
    (hstop : p.tables.actionAt state stop.terminal = .error) :
    Discarded p input state e left (skipped.map fun t => .discard t.text, .error e)
  | stray (skipped : List Token) (le : LexError) (rest : List (Except LexError Token))
    (h : left = skipped.map .ok ++ .error le :: rest)
    (hskipped : ∀ t ∈ skipped, p.tables.actionAt state t.terminal = .error) :
    Discarded p input state e left (skipped.map fun t => .discard t.text,
      .error (lexError input le))

/-- One more token in front without an action is discarded first. -/
theorem Discarded.cons {e : ParseError} {left : List (Except LexError Token)} {moves : List Move}
    {result : Except ParseError (Token × Cursor)} {token : Token}
    (h : p.Discarded input state e left (moves, result))
    (htoken : p.tables.actionAt state token.terminal = .error) :
    p.Discarded input state e (.ok token :: left) (.discard token.text :: moves, result) := by
  cases h with
  | found skipped h hskipped hfound =>
    exact .found (token :: skipped) (by rw [h]; rfl)
      (List.forall_mem_cons.2 ⟨htoken, hskipped⟩) hfound
  | ended skipped stop h hskipped hstop =>
    exact .ended (token :: skipped) stop (by rw [h]; rfl)
      (List.forall_mem_cons.2 ⟨htoken, hskipped⟩) hstop
  | stray skipped le rest h hskipped =>
    exact .stray (token :: skipped) le rest (by rw [h]; rfl)
      (List.forall_mem_cons.2 ⟨htoken, hskipped⟩)

theorem Proper.discarded (hp : p.Proper) (state : Nat) (e : ParseError) (token : Token)
    (ahead : Cursor) : p.Discarded input state e (p.unread token ahead)
      (p.discard input state e token ahead) := by
  fun_induction Parser.discard p input state e token ahead with
  | case1 token ahead haction =>
    exact .found [] rfl (fun t ht => absurd ht List.not_mem_nil) haction
  | case2 token ahead haction heof =>
    rw [hp.eof] at heof
    refine .ended [] token ?_ (fun t ht => absurd ht List.not_mem_nil)
      (not_not.1 haction)
    rw [unread, if_pos heof]
    rfl
  | case3 token ahead haction heof next after hscan moves result hrest ih =>
    rw [hp.eof] at heof
    have hleft : p.unread token ahead = .ok token :: p.unread next after := by
      rw [unread_of_ne heof, Lexer.tokensFrom_of_scan, hscan,
        unread_of_ne (hp.terminal_ne_eof hscan)]
    rw [hrest] at ih
    rw [hleft]
    exact ih.cons (not_not.1 haction)
  | case4 token ahead haction heof le after hscan =>
    rw [hp.eof] at heof
    refine .stray [token] le (p.lexer.tokensFrom after.pos after.rest) ?_
      (List.forall_mem_singleton.2 (not_not.1 haction))
    rw [unread_of_ne heof, Lexer.tokensFrom_of_scan, hscan]
    rfl
  | case5 token ahead haction heof pos hscan =>
    rw [hp.eof] at heof
    have hleft : p.unread token ahead = [.ok token, .ok (p.lexer.endToken pos)] := by
      rw [unread_of_ne heof, Lexer.tokensFrom_of_scan, hscan]
    rw [hleft]
    split
    · next hend =>
      refine .found [token] ?_ (List.forall_mem_singleton.2 (not_not.1 haction)) hend
      rw [hp.unread_endToken]
      rfl
    · next hend =>
      exact .ended [token] (p.lexer.endToken pos) rfl (List.forall_mem_singleton.2 (not_not.1 haction))
        (not_not.1 hend)

/-! ### Going on -/

/-- The step recovers from the error: it keeps a part of the stack, shifts the terminal for wrong input
on it, and goes on behind the tokens that are to be discarded. -/
def ResumesFrom (p : Parser α) (input : String) (c : Config α) (terminal : Nat)
    (kept : List (Nat × α)) : Prop :=
  ∃ next value moves result,
    p.tables.actionAt (p.top kept) terminal = .shift next ∧
    p.valueOf terminal c.token.text = some value ∧
    p.Discarded input next (p.syntaxError input (p.top c.stack) c.token) (p.unread c.token c.ahead)
      (moves, result) ∧
    p.step input c = (.shiftError (p.top kept) next :: moves,
      match result with
      | .ok (token, ahead) => .next ⟨(next, value) :: kept, token, ahead,
          some (p.syntaxError input (p.top c.stack) c.token), false⟩
      | .error e => .done (.error e))

/-- The first token without an action since one was shifted is recovered from. -/
theorem step_of_error (haction : p.tables.actionAt (p.top c.stack) c.token.terminal = .error)
    (hshifted : c.shifted = true) : p.step input c =
      p.recover input c (p.syntaxError input (p.top c.stack) c.token) := by
  rw [step, haction]
  simp only [stumble, hshifted, if_true]

theorem step_of_recoveryPoint_eq_none (herror : p.grammar.error = some terminal)
    (haction : p.tables.actionAt (p.top c.stack) c.token.terminal = .error)
    (hshifted : c.shifted = true) (hpoint : p.recoveryPoint terminal c.stack = none) :
    p.step input c = ([], .done (.error (p.syntaxError input (p.top c.stack) c.token))) := by
  rw [step_of_error haction hshifted, recover, herror]
  simp only [hpoint]

theorem Reached.resumesFrom (hp : p.Proper) (hc : p.Reached input c)
    (herror : p.grammar.error = some terminal)
    (haction : p.tables.actionAt (p.top c.stack) c.token.terminal = .error)
    (hshifted : c.shifted = true) {next : Nat}
    (hpoint : p.recoveryPoint terminal c.stack = some (rest, state, next)) :
    p.ResumesFrom input c terminal rest := by
  obtain ⟨hrest, rfl, hnext, -⟩ := longest_of_recoveryPoint hpoint
  -- the terminal for wrong input is in a production, so it has a value
  obtain ⟨n, rfl⟩ : ∃ n, rest = c.stack.drop n := ⟨_, List.suffix_iff_eq_drop.1 hrest⟩
  obtain ⟨value, hvalue⟩ := ((hc.safe hp).shift _ (top_mem_of_drop n) _ _ hnext).1 c.token.text
  cases hdiscard : p.discard input next (p.syntaxError input (p.top c.stack) c.token) c.token
      c.ahead with
  | mk moves result =>
    refine ⟨next, value, moves, result, hnext, hvalue, ?_, ?_⟩
    · rw [← hdiscard]
      exact hp.discarded next _ c.token c.ahead
    · rw [step_of_error haction hshifted, recover, herror]
      simp only [hpoint, hvalue, hdiscard]
      cases result with
      | error e => rfl
      | ok found => rfl

end Parser

/-- If the top of some part of the stack shifts the terminal for wrong input, a parser recovers from
an error, and it goes on from the longest such part. Otherwise the error stays. -/
theorem Blueprint.Declared.resumes_from_longest {α : Type} {b : Blueprint α} (hb : b.Declared)
    {p : Parser α} (hp : b.build = .ok p) {input : String} {c : Config α} (hc : p.Reached input c)
    {terminal : Nat} (herror : p.grammar.error = some terminal)
    (haction : p.tables.actionAt (p.top c.stack) c.token.terminal = .error)
    (hshifted : c.shifted = true) :
    ((∃ rest, rest <:+ c.stack ∧ p.Shifts terminal rest) →
      ∃ kept, kept <:+ c.stack ∧ p.Shifts terminal kept ∧
        (∀ longer, longer <:+ c.stack → p.Shifts terminal longer → longer <:+ kept) ∧
        p.ResumesFrom input c terminal kept) ∧
    ((∀ rest, rest <:+ c.stack → ¬ p.Shifts terminal rest) →
      p.step input c = ([], .done (.error (p.syntaxError input (p.top c.stack) c.token)))) := by
  constructor
  · rintro ⟨rest, hrest, hshifts⟩
    cases hpoint : p.recoveryPoint terminal c.stack with
    | none => exact absurd hshifts (Parser.recoveryPoint_eq_none_iff.1 hpoint rest hrest)
    | some point =>
      obtain ⟨kept, state, next⟩ := point
      obtain ⟨hkept, rfl, hnext, hlongest⟩ := Parser.longest_of_recoveryPoint hpoint
      exact ⟨kept, hkept, ⟨next, hnext⟩, hlongest,
        hc.resumesFrom (hb.proper hp) herror haction hshifted hpoint⟩
  · intro hnever
    exact Parser.step_of_recoveryPoint_eq_none herror haction hshifted
      (Parser.recoveryPoint_eq_none_iff.2 hnever)

/-! ### Statements -/

/-- Declarations for a parser of statements `n ;`, in a list that begins with nothing. A statement may
be wrong up to its semicolon. -/
def Blueprint.statements : Blueprint String :=
  let b : Blueprint String := .empty
  let b := b.errorToken.1
  let b := b.setLiteralValue id
  let b := (b.nonterminal "stmts").1
  let b := (b.nonterminal "stmt").1
  let b := (b.production 0 [.nonterminal 0, .nonterminal 1]).1
  let b := (b.production 0 []).1
  let b := b.setRule 1 (.apply fun _ => .ok "")
  let b := (b.production 1 [.terminal (.literal "n"), .terminal (.literal ";")]).1
  (b.production 1 [.terminal (.declared 0), .terminal (.literal ";")]).1

theorem Blueprint.declared_statements : Blueprint.statements.Declared := by
  refine .production (.production (.setRule (.production (.production ?_ _ _) _ _) _ _) _ _) _ _
  exact .nonterminal (.nonterminal (.setLiteralValue (.errorToken .empty) _) _) _

/-- At the second `n` the first one is given up, and the list before it is kept. -/
theorem Blueprint.Declared.resumes_from_longest_statements : ∃ p c,
    Blueprint.statements.build = .ok p ∧ p.Reached "nn;" c ∧ c.stack.length = 2 ∧
    ∃ kept, kept <:+ c.stack ∧ p.Shifts 0 kept ∧
      (∀ longer, longer <:+ c.stack → p.Shifts 0 longer → longer <:+ kept) ∧
      p.ResumesFrom "nn;" c 0 kept := by
  obtain ⟨p, hp, herror, hafter⟩ := Blueprint.exists_build (b := Blueprint.statements)
    (P := fun p => p.grammar.error = some 0 ∧ (p.configAfter "nn;" 2).map (fun c =>
      (c.stack.length, c.shifted, p.tables.actionAt (p.top c.stack) c.token.terminal,
        p.tables.actionAt (p.top (c.stack.drop 1)) 0)) = some (2, true, .error, .shift 3))
    (by decide +kernel)
  obtain ⟨c, hc, heq⟩ := Option.map_eq_some_iff.1 hafter
  simp only [Prod.mk.injEq] at heq
  obtain ⟨hlength, hshifted, haction, hshift⟩ := heq
  have hreached := Parser.reached_of_configAfter hc
  exact ⟨p, c, hp, hreached, hlength, (Blueprint.declared_statements.resumes_from_longest hp hreached
    herror haction hshifted).1 ⟨c.stack.drop 1, List.drop_suffix 1 c.stack, 3, hshift⟩⟩

/-- At a semicolon that nothing comes before, the tables lead to a shift of the terminal for wrong
input once the empty list is reduced, and yet the parser does not recover. -/
theorem Parser.unreduced_statements : ∃ b : Blueprint String, b.Declared ∧ ∃ p c terminal,
    b.build = .ok p ∧ p.Reached ";" c ∧ p.grammar.error = some terminal ∧
    p.tables.actionAt (p.top c.stack) c.token.terminal = .error ∧ c.shifted = true ∧
    p.ShiftsAfter terminal (c.stack.map Prod.fst) ∧
    p.step ";" c = ([], .done (.error (p.syntaxError ";" (p.top c.stack) c.token))) := by
  refine ⟨Blueprint.statements, Blueprint.declared_statements, ?_⟩
  obtain ⟨p, hp, herror, hafter, hreduce, harity, hgoto, hshift⟩ :=
    Blueprint.exists_build (b := Blueprint.statements)
      (P := fun p => p.grammar.error = some 0 ∧ (p.configAfter ";" 0).map (fun c =>
          (c.stack, c.shifted, p.tables.actionAt (p.top c.stack) c.token.terminal)) =
            some ([], true, .error) ∧
        p.tables.actionAt p.tables.start 0 = .reduce 1 ∧ p.arity 1 = 0 ∧
        p.tables.gotoAt p.tables.start (p.target 1) = some 1 ∧ p.tables.actionAt 1 0 = .shift 3)
      (by decide +kernel)
  obtain ⟨c, hc, heq⟩ := Option.map_eq_some_iff.1 hafter
  simp only [Prod.mk.injEq] at heq
  obtain ⟨hstack, hshifted, haction⟩ := heq
  refine ⟨p, c, 0, hp, Parser.reached_of_configAfter hc, herror, haction, hshifted, ?_, ?_⟩
  · rw [hstack]
    refine .reduce hreduce ?_ (.shift hshift)
    rw [harity]
    exact hgoto
  · refine Parser.step_of_recoveryPoint_eq_none herror haction hshifted ?_
    rw [hstack]
    refine Parser.recoveryPoint_nil ?_
    rintro ⟨next, hnext⟩
    exact absurd (hreduce.symm.trans hnext) (by simp)

end ShiftReduce
