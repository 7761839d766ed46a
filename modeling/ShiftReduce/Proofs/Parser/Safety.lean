import ShiftReduce.Proofs.Parser.Soundness

/-!
# A parser never fails on its own

A parser relies on much that it does not check while it runs: that there are as many values on the
stack as a production takes off, that there is a state to go on with after a reduction, that a
terminal which is shifted has a value, that every number it looks up names something, and that the
places it reports lie between two characters. `Parser.Safe` lists all of this for one configuration.
It follows from the stack standing for a forest, which every step keeps, so it holds in every
configuration that a parse goes through (`Parser.Reached`), those after a recovery included.

What is left are the errors that a parse may well end with (`Parser.Fails`): a stray character, a
token that the state has no action for, and values that a function of the user refuses.
-/

namespace ShiftReduce

open Text
open Collection (walk)
open Tables (Stacked statesOf)

/-! ### Places in the input -/

/-- The places that a token or a stray character reports. -/
def placesOf : Except LexError Token → List Nat
  | .ok t => [t.start, t.stop]
  | .error e => [e.start, e.stop]

/-- Tokens and stray characters begin and end where characters do. -/
theorem Decomposes.boundaries {ps : List Pattern} {eof pos : Nat} {cs : List Char}
    {toks : List (Except LexError Token)} (h : Decomposes ps eof pos cs toks) :
    ∀ tok ∈ toks, ∀ offset ∈ placesOf tok, BoundaryFrom pos cs offset := by
  -- the first one reports where the text begins and where the rest of it does
  have hcut : ∀ {w rest : List Char} {tok : Except LexError Token} {pos : Nat},
      placesOf tok = [pos, pos + byteLength w] →
        ∀ offset ∈ placesOf tok, BoundaryFrom pos (w ++ rest) offset := by
    intro w rest tok pos hplaces offset hoffset
    rw [hplaces, List.mem_pair] at hoffset
    rcases hoffset with rfl | rfl
    · exact boundaryFrom_start _ _
    · exact (boundaryFrom_start _ _).behind
  induction h with
  | @ending pos =>
    intro tok htok offset hoffset
    rw [List.mem_singleton.1 htok, placesOf, List.mem_pair, or_self] at hoffset
    rw [hoffset]
    exact boundaryFrom_start _ _
  | token hmunched hskip hrest ih =>
    intro tok htok
    rcases List.mem_cons.1 htok with rfl | htok
    · exact hcut rfl
    · exact fun offset hoffset => (ih tok htok offset hoffset).behind
  | skipped hmunched hskip hrest ih =>
    exact fun tok htok offset hoffset => (ih tok htok offset hoffset).behind
  | @stray pos c rest toks hnone hrest ih =>
    intro tok htok
    rcases List.mem_cons.1 htok with rfl | htok
    · exact hcut (w := [c]) (by simp [placesOf])
    · intro offset hoffset
      refine BoundaryFrom.behind (w := [c]) ?_
      rw [byteLength_cons, byteLength_nil, Nat.add_zero]
      exact ih tok htok offset hoffset

theorem Decomposes.ne_nil {ps : List Pattern} {eof pos : Nat} {cs : List Char}
    {toks : List (Except LexError Token)} (h : Decomposes ps eof pos cs toks) : toks ≠ [] := by
  obtain ⟨front, rfl⟩ := h.exists_ending
  simp

/-- The terminal of every token but the last is that of a pattern. -/
theorem Decomposes.exists_pattern_of_mem {ps : List Pattern} {eof pos : Nat} {cs : List Char}
    {toks : List (Except LexError Token)} (h : Decomposes ps eof pos cs toks) {t : Token}
    (ht : .ok t ∈ toks.dropLast) : ∃ q ∈ ps, q.terminal = t.terminal := by
  induction h with
  | ending => exact absurd ht List.not_mem_nil
  | token hmunched hskip hrest ih =>
    rw [List.dropLast_cons_of_ne_nil hrest.ne_nil] at ht
    rcases List.mem_cons.1 ht with heq | ht
    · obtain ⟨q, hq, hterminal, -⟩ := hmunched.attributed.exists_pattern
      rw [Except.ok.inj heq]
      exact ⟨q, hq, hterminal⟩
    · exact ih ht
  | skipped hmunched hskip hrest ih => exact ih ht
  | stray hnone hrest ih =>
    rw [List.dropLast_cons_of_ne_nil hrest.ne_nil] at ht
    exact ih ((List.mem_cons.1 ht).resolve_left (by simp))

/-- The terminal of a token is that of a pattern, or the one for the end of the input. -/
theorem Decomposes.terminal_of_mem {ps : List Pattern} {eof pos : Nat} {cs : List Char}
    {toks : List (Except LexError Token)} (h : Decomposes ps eof pos cs toks) {t : Token}
    (ht : .ok t ∈ toks) : t.terminal = eof ∨ ∃ q ∈ ps, q.terminal = t.terminal := by
  obtain ⟨front, rfl⟩ := h.exists_ending
  rcases List.mem_append.1 ht with ht | ht
  · exact Or.inr (h.exists_pattern_of_mem (by rwa [List.dropLast_concat]))
  · rw [Except.ok.inj (List.mem_singleton.1 ht)]
    exact Or.inl rfl

namespace Parser

variable {α : Type} {p : Parser α} {input : String} {c c' : Config α}

theorem Proper.boundaries (hp : p.Proper) (input : String) :
    ∀ tok ∈ p.lexer.tokens input, ∀ offset ∈ placesOf tok, IsBoundary input offset :=
  (hp.lexer.decomposes_tokensFrom 0 input.toList).boundaries

/-- Every token has a terminal of the grammar. -/
theorem Proper.terminal_lt (hp : p.Proper) {t : Token} (ht : .ok t ∈ p.lexer.tokens input) :
    t.terminal < p.grammar.terminals.size := by
  have hcut := hp.lexer.decomposes_tokensFrom 0 input.toList
  rcases hcut.terminal_of_mem ht with heq | ⟨q, hq, heq⟩
  · rw [heq]
    exact hp.wellFormed.eof_lt
  · obtain ⟨t', ht', -⟩ := Draft.exists_terminal_of_mem_patterns hq
    rw [← heq]
    exact (Array.getElem?_eq_some_iff.1 ht').1

/-- Only the last token is the end of the input. -/
theorem Proper.words_ne_eof (hp : p.Proper) {tokens : List Token} {stop : Token}
    (htokens : p.lexer.tokens input = tokens.map .ok ++ [.ok stop]) :
    ∀ word ∈ tokens.map Token.word, word.1 ≠ p.grammar.eof := by
  intro word hword
  obtain ⟨token, htoken, rfl⟩ := List.mem_map.1 hword
  have hcut := hp.lexer.decomposes_tokensFrom 0 input.toList
  rw [show p.lexer.tokensFrom 0 input.toList = tokens.map .ok ++ [.ok stop] from htokens] at hcut
  have hmem : .ok token ∈ (tokens.map .ok ++ [.ok stop] : List (Except LexError Token)).dropLast := by
    rw [List.dropLast_concat]
    exact List.mem_map_of_mem htoken
  obtain ⟨q, hq, hterminal⟩ := hcut.exists_pattern_of_mem hmem
  rw [Token.word, ← hterminal]
  exact (hp.patterns q hq).1

/-! ### Stacks -/

theorem Reached.exists_sound (hp : p.Proper) (h : p.Reached input c) :
    ∃ tokens forest, p.Sound input p.grammar.error c tokens forest := by
  induction h with
  | start hnext => exact ⟨[], [], hp.sound_start hnext⟩
  | step _ hstep ih =>
    obtain ⟨tokens, forest, hsound⟩ := ih
    exact hsound.step hp hstep (Or.inl rfl)

/-- The states on a stack are a path: the first one is entered from the first state of the tables,
and each by shifting a terminal, or by going on with a nonterminal, in the state below. -/
inductive IsPath (p : Parser α) : List (Nat × α) → Prop
  | nil : IsPath p []
  | shift {stack : List (Nat × α)} {terminal next : Nat} (h : IsPath p stack)
    (haction : p.tables.actionAt (p.top stack) terminal = .shift next) (v : α) :
    IsPath p ((next, v) :: stack)
  | goto {stack : List (Nat × α)} {nt next : Nat} (h : IsPath p stack)
    (hgoto : p.tables.gotoAt (p.top stack) nt = some next) (v : α) : IsPath p ((next, v) :: stack)

theorem IsPath.drop {stack : List (Nat × α)} (h : p.IsPath stack) (n : Nat) :
    p.IsPath (stack.drop n) := by
  induction h generalizing n with
  | nil =>
    rw [List.drop_nil]
    exact .nil
  | shift h haction v ih =>
    cases n with
    | zero => exact .shift h haction v
    | succ n => exact ih n
  | goto h hgoto v ih =>
    cases n with
    | zero => exact .goto h hgoto v
    | succ n => exact ih n

theorem IsPath.step {moves : List Move} (h : p.IsPath c.stack)
    (hstep : p.step input c = (moves, .next c')) : p.IsPath c'.stack := by
  rcases step_cases hstep with ⟨next, haction, -, hshift⟩ | ⟨prod, haction, -, hreduce⟩ |
    ⟨-, hstumble⟩
  · obtain ⟨value, token, ahead, -, -, rfl⟩ := shift_eq_next hshift
    exact .shift h haction value
  · obtain ⟨value, next, -, hgoto, rfl⟩ := reduce_eq_next hreduce
    exact .goto (h.drop _) hgoto value
  · rcases stumble_eq_next hstumble with ⟨-, hrecover⟩ | ⟨token, ahead, -, -, -, -, rfl⟩
    · obtain ⟨terminal, stack, state, next, value, moves', token, ahead, -, hpoint, -, -, -, rfl⟩ :=
        recover_eq_next hrecover
      obtain ⟨n, rfl, haction⟩ := recoveryPoint_spec hpoint
      exact .shift (h.drop n) haction value
    · exact h

theorem Reached.isPath (h : p.Reached input c) : p.IsPath c.stack := by
  induction h with
  | start _ => exact .nil
  | step _ hstep ih => exact ih.step hstep

/-- The state on top of what is left of a stack is the first one or one on the stack. -/
theorem top_mem_of_drop {stack : List (Nat × α)} (n : Nat) :
    p.top (stack.drop n) ∈ p.tables.start :: stack.map Prod.fst := by
  cases hdrop : stack.drop n with
  | nil => exact List.mem_cons_self
  | cons entry rest =>
    refine List.mem_cons_of_mem _ (List.mem_map_of_mem ?_)
    exact List.mem_of_mem_drop (hdrop ▸ List.mem_cons_self)

/-! ### What a parser relies on -/

/-- The state has a row in both tables, with an entry for each terminal and each nonterminal. -/
structure HasRows (p : Parser α) (state : Nat) : Prop where
  action : ∃ row, p.tables.action[state]? = some row ∧ row.size = p.grammar.terminals.size
  goto : ∃ row, p.tables.goto[state]? = some row ∧ p.grammar.nts.size ≤ row.size

/-- What a parser looks up in a configuration is there. -/
structure Safe (p : Parser α) (input : String) (c : Config α) : Prop where
  path : p.IsPath c.stack
  /-- The first state and those on the stack have their rows. -/
  rows : ∀ state ∈ p.tables.start :: c.stack.map Prod.fst, p.HasRows state
  /-- What the first state or one on the stack shifts, the terminal for wrong input included, has a
  value, it is not the end of the input, and the state after it has its rows. -/
  shift : ∀ state ∈ p.tables.start :: c.stack.map Prod.fst, ∀ terminal next,
    p.tables.actionAt state terminal = .shift next →
      (∀ text, ∃ v, p.valueOf terminal text = some v) ∧ terminal ≠ p.tables.eof ∧ p.HasRows next
  /-- A production that is reduced is one of the grammar and has a rule. There are as many values as
  it takes, among them the one that the rule picks, if it is not a function. There is a state to go on
  with. -/
  reduce : ∀ prod, p.tables.actionAt (p.top c.stack) c.token.terminal = .reduce prod →
    prod < p.grammar.prods.size ∧
    p.tables.prods[prod]? = some (p.grammar.lhs prod, (p.grammar.rhs prod).length) ∧
    p.arity prod ≤ c.stack.length ∧
    (∃ r, p.rules[prod]? = some r ∧ ((∃ f, r.rule = .apply f) ∨
      ∃ v, r.rule.run ((c.stack.take (p.arity prod)).map Prod.snd).reverse = .ok v)) ∧
    ∃ next, p.tables.gotoAt (p.top (c.stack.drop (p.arity prod))) (p.target prod) = some next ∧
      p.HasRows next
  /-- The input is accepted at its end, with one value on the stack. -/
  accept : p.tables.actionAt (p.top c.stack) c.token.terminal = .accept →
    c.token.terminal = p.tables.eof ∧ ∃ state v, c.stack = [(state, v)]
  /-- The token that the parser looks at and those behind it have terminals of the grammar. -/
  terminals : ∀ t, .ok t ∈ p.unread c.token c.ahead → t.terminal < p.grammar.terminals.size
  /-- The places that they report lie between characters. -/
  places : ∀ tok ∈ p.unread c.token c.ahead, ∀ offset ∈ placesOf tok, IsBoundary input offset

/-- The errors that the parse of an input may end with in a configuration. -/
inductive Fails (p : Parser α) (input : String) (c : Config α) : ParseError → Prop
  /-- A stray character among those not read yet. -/
  | stray {e : LexError} (h : .error e ∈ p.unread c.token c.ahead) :
    Fails p input c (lexError input e)
  /-- The token has no action in the state. -/
  | unexpected (h : p.tables.actionAt (p.top c.stack) c.token.terminal = .error) :
    Fails p input c (p.syntaxError input (p.top c.stack) c.token)
  /-- The function of a production refuses the values. -/
  | refused {prod : Nat} {r : ProdRule α} {f : List α → Except String α} {message : String}
    (haction : p.tables.actionAt (p.top c.stack) c.token.terminal = .reduce prod)
    (hr : p.rules[prod]? = some r) (hf : r.rule = .apply f)
    (hrefused : f ((c.stack.take (p.arity prod)).map Prod.snd).reverse = .error message) :
    Fails p input c (.refused message (p.grammar.prodText prod) ⟨c.token.start, c.token.stop⟩
      (Location.ofOffset input c.token.start))

/-- A state that can be walked to has its rows. -/
theorem Proper.hasRows (hp : p.Proper) {γ : List Symbol} {state : Nat}
    (hwalk : walk (statesOf p.grammar) 0 γ = some state) : p.HasRows state := by
  obtain ⟨s, hs⟩ := Tables.exists_state hp.wellFormed hwalk
  obtain ⟨cells, hcells, hrow⟩ := hp.made.rows hs
  refine { action := ⟨_, hcells, ?_⟩, goto := ⟨Tables.gotoRow p.grammar.augment s, ?_, ?_⟩ }
  · rw [Array.size_map, hrow.size, Grammar.terminals_augment]
  · rw [hp.made.goto, Array.getElem?_map, hs, Option.map_some]
  · have hsize : (Tables.gotoRow p.grammar.augment s).size = p.grammar.nts.size + 1 := by
      simp [Tables.gotoRow]
    rw [hsize]
    exact Nat.le_succ _

/-- A rule that goes with its production finds what it picks among the values. -/
theorem exists_run_of_ruleFault {g : Grammar} {prod : Nat} {rule : Rule α} {values : List α}
    (h : Blueprint.ruleFault g prod rule = none) (hlength : values.length = (g.rhs prod).length) :
    (∃ f, rule = .apply f) ∨ ∃ v, rule.run values = .ok v := by
  cases rule with
  | first =>
    right
    cases values with
    | nil => exact absurd h (by simp [Blueprint.ruleFault, ← hlength])
    | cons v values => exact ⟨v, rfl⟩
  | index i =>
    right
    simp only [Blueprint.ruleFault, ← hlength] at h
    split at h
    · exact absurd h (by simp)
    · next hle =>
      refine ⟨values[i], ?_⟩
      rw [Rule.run, List.getElem?_eq_getElem (Nat.lt_of_not_le hle)]
  | apply f => exact Or.inl ⟨f, rfl⟩

/-- What is shifted has a value and leads on. -/
theorem Proper.shift_safe (hp : p.Proper) {γ : List Symbol} {state terminal next : Nat}
    (hwalk : walk (statesOf p.grammar) 0 γ = some state)
    (haction : p.tables.actionAt state terminal = .shift next) :
    (∀ text, ∃ v, p.valueOf terminal text = some v) ∧ terminal ≠ p.tables.eof ∧
      p.HasRows next := by
  obtain ⟨hnext, hne⟩ := hp.made.walk_of_shift hp.wellFormed hwalk haction
  obtain ⟨prod, hprod⟩ := hp.made.exists_mem_rhs_of_shift hp.wellFormed hwalk haction
  refine ⟨?_, ?_, hp.hasRows hnext⟩
  · intro text
    obtain ⟨value, hvalue⟩ := Option.isSome_iff_exists.1 (hp.values prod terminal hprod)
    exact ⟨value text, by rw [valueOf, hvalue, Option.map_some]⟩
  · rw [hp.eof]
    exact hne

/-- A reduction finds its values, its rule and a state to go on with. -/
theorem Sound.reduce_safe (hp : p.Proper) {tokens : List Token} {forest : List Tree}
    (h : p.Sound input p.grammar.error c tokens forest) {prod : Nat}
    (haction : p.tables.actionAt (p.top c.stack) c.token.terminal = .reduce prod) :
    prod < p.grammar.prods.size ∧
    p.tables.prods[prod]? = some (p.grammar.lhs prod, (p.grammar.rhs prod).length) ∧
    p.arity prod ≤ c.stack.length ∧
    (∃ r, p.rules[prod]? = some r ∧ ((∃ f, r.rule = .apply f) ∨
      ∃ v, r.rule.run ((c.stack.take (p.arity prod)).map Prod.snd).reverse = .ok v)) ∧
    ∃ next, p.tables.gotoAt (p.top (c.stack.drop (p.arity prod))) (p.target prod) = some next ∧
      p.HasRows next := by
  rw [hp.top_eq] at haction
  obtain ⟨hprod, hroots⟩ := h.stacked.roots_of_reduce hp.wellFormed hp.made haction
  obtain ⟨next, hnext⟩ := h.stacked.exists_gotoAt hp.wellFormed hp.made haction
  -- the trees that are taken off are as many as the production has symbols
  have htake : ((c.stack.take (p.arity prod)).map Prod.snd).reverse.length =
      (p.grammar.rhs prod).length := by
    have hforall := (h.stacked.forall₂_take (p.arity prod)).length_eq
    have hlength := congrArg List.length hroots
    rw [List.length_map, List.length_reverse, ← hp.arity_eq hprod, hforall] at hlength
    rw [List.length_reverse, hlength, hp.arity_eq hprod]
  have hrule : prod < p.rules.size := by
    rw [hp.rules]
    exact hprod
  have hr := Array.getElem?_eq_getElem hrule
  refine ⟨hprod, hp.getElem?_prods hprod, ?_, ⟨_, hr, ?_⟩, next, ?_, ?_⟩
  · rw [List.length_reverse, List.length_map, List.length_take, ← hp.arity_eq hprod] at htake
    omega
  · exact exists_run_of_ruleFault (hp.operands prod _ hr) htake
  · rw [hp.top_eq, hp.arity_eq hprod, hp.target_eq hprod]
    exact hnext
  · exact hp.hasRows (hp.made.walk_of_gotoAt (h.stacked.drop _).walk_topState hnext)

/-- The states on a stack that stands for a forest can be walked to. -/
theorem exists_walk_of_mem {g : Grammar} {E : Tree → α → Prop} {stack : List (Nat × α)}
    {forest : List Tree} (h : Stacked g E stack forest) {state : Nat}
    (hstate : state ∈ 0 :: stack.map Prod.fst) : ∃ γ, walk (statesOf g) 0 γ = some state := by
  induction h with
  | nil =>
    rw [List.mem_singleton.1 hstate]
    exact ⟨[], rfl⟩
  | push h hwalk htree hv ih =>
    rcases List.mem_cons.1 hstate with rfl | hstate
    · exact ih List.mem_cons_self
    · rcases List.mem_cons.1 hstate with rfl | hstate
      · exact ⟨_, hwalk⟩
      · exact ih (List.mem_cons_of_mem _ hstate)

theorem Sound.safe (hp : p.Proper) {tokens : List Token} {forest : List Tree}
    (h : p.Sound input p.grammar.error c tokens forest) (hpath : p.IsPath c.stack) :
    p.Safe input c := by
  have hwalk : ∀ state ∈ p.tables.start :: c.stack.map Prod.fst,
      ∃ γ, walk (statesOf p.grammar) 0 γ = some state := by
    intro state hstate
    rw [hp.made.start] at hstate
    exact exists_walk_of_mem h.stacked hstate
  have hunread : ∀ tok ∈ p.unread c.token c.ahead, tok ∈ p.lexer.tokens input := by
    intro tok htok
    rw [h.split]
    exact List.mem_append_right _ htok
  refine
    { path := hpath, rows := ?_, shift := ?_, reduce := fun prod => h.reduce_safe hp, accept := ?_,
      terminals := fun t ht => hp.terminal_lt (hunread _ ht),
      places := fun tok htok => hp.boundaries input tok (hunread tok htok) }
  · intro state hstate
    obtain ⟨γ, hγ⟩ := hwalk state hstate
    exact hp.hasRows hγ
  · intro state hstate terminal next haction
    obtain ⟨γ, hγ⟩ := hwalk state hstate
    exact hp.shift_safe hγ haction
  · intro haction
    rw [hp.top_eq] at haction
    obtain ⟨heof, tree, state, v, -, hstack, -⟩ :=
      h.stacked.accept hp.wellFormed hp.made haction
    rw [hp.eof]
    exact ⟨heof, state, v, hstack⟩

theorem Reached.safe (hp : p.Proper) (h : p.Reached input c) : p.Safe input c := by
  obtain ⟨tokens, forest, hsound⟩ := h.exists_sound hp
  exact hsound.safe hp h.isPath

/-! ### How a parse fails -/

/-- The next token is there, unless a stray character comes first. -/
theorem stray_of_nextToken {token : Token} {ahead : Cursor} {e : ParseError}
    (hne : token.terminal ≠ p.grammar.eof) (h : p.nextToken input ahead = .error e) :
    ∃ le, .error le ∈ p.unread token ahead ∧ e = lexError input le := by
  rw [nextToken] at h
  split at h
  · exact absurd h (by simp)
  · next le after hscan =>
    refine ⟨le, ?_, (Except.error.inj h).symm⟩
    rw [unread_of_ne hne, Lexer.tokensFrom_of_scan, hscan]
    exact List.mem_cons_of_mem _ List.mem_cons_self
  · exact absurd h (by simp)

/-- Discarding fails with the error that it was to recover from, or at a stray character. -/
theorem Proper.discard_eq_error (hp : p.Proper) {state : Nat} {e e' : ParseError} {token : Token}
    {ahead : Cursor} {moves : List Move}
    (h : p.discard input state e token ahead = (moves, .error e')) :
    e' = e ∨ ∃ le, .error le ∈ p.unread token ahead ∧ e' = lexError input le := by
  fun_induction Parser.discard p input state e token ahead generalizing moves with
  | case1 token ahead haction => exact absurd h (by simp)
  | case2 token ahead haction heof => exact Or.inl (Except.error.inj (Prod.mk.inj h).2).symm
  | case3 token ahead haction heof next after hscan moves' result hrest ih =>
    obtain ⟨-, rfl⟩ := Prod.mk.inj h
    rw [hp.eof] at heof
    refine (ih hrest).imp_right ?_
    rintro ⟨le, hmem, rfl⟩
    refine ⟨le, ?_, rfl⟩
    rw [unread_of_ne heof, Lexer.tokensFrom_of_scan, hscan]
    rw [unread_of_ne (hp.terminal_ne_eof hscan)] at hmem
    exact List.mem_cons_of_mem _ hmem
  | case4 token ahead haction heof le after hscan =>
    rw [hp.eof] at heof
    refine Or.inr ⟨le, ?_, (Except.error.inj (Prod.mk.inj h).2).symm⟩
    rw [unread_of_ne heof, Lexer.tokensFrom_of_scan, hscan]
    exact List.mem_cons_of_mem _ List.mem_cons_self
  | case5 token ahead haction heof pos hscan =>
    have hresult := (Prod.mk.inj h).2
    split at hresult
    · exact absurd hresult (by simp)
    · exact Or.inl (Except.error.inj hresult).symm

theorem Safe.fails_of_reduce (h : p.Safe input c) {prod : Nat}
    (haction : p.tables.actionAt (p.top c.stack) c.token.terminal = .reduce prod) {e : ParseError}
    (hreduce : p.reduce input c prod = .done (.error e)) : p.Fails input c e := by
  obtain ⟨-, -, -, ⟨r, hr, hrule⟩, next, hnext, -⟩ := h.reduce prod haction
  simp only [Parser.reduce, hnext] at hreduce
  split at hreduce
  · next e' hvalue =>
    obtain rfl : e' = e := Except.error.inj (Step.done.inj hreduce)
    rw [reduceValue, hr] at hvalue
    simp only at hvalue
    split at hvalue
    · exact absurd hvalue (by simp)
    · -- no handler comes in, so the rule has refused the values
      rcases hrule with ⟨f, hf⟩ | ⟨v, hv⟩
      · rw [hf, Rule.run] at hvalue
        cases hrun : f ((c.stack.take (p.arity prod)).map Prod.snd).reverse with
        | ok v =>
          rw [hrun] at hvalue
          exact absurd hvalue (by simp [Except.mapError])
        | error message =>
          rw [hrun] at hvalue
          rw [← Except.error.inj hvalue]
          exact .refused haction hr hf hrun
      · rw [hv] at hvalue
        exact absurd hvalue (by simp [Except.mapError])
  · exact absurd hreduce (by simp)

theorem Safe.fails_of_recover (hp : p.Proper) (h : p.Safe input c)
    (haction : p.tables.actionAt (p.top c.stack) c.token.terminal = .error) {moves : List Move}
    {e : ParseError} (hrecover : p.recover input c (p.syntaxError input (p.top c.stack) c.token) =
      (moves, .done (.error e))) : p.Fails input c e := by
  rw [Parser.recover] at hrecover
  split at hrecover
  · rw [← Except.error.inj (Step.done.inj (Prod.mk.inj hrecover).2)]
    exact .unexpected haction
  · next terminal herror =>
    split at hrecover
    · rw [← Except.error.inj (Step.done.inj (Prod.mk.inj hrecover).2)]
      exact .unexpected haction
    · next stack state next hpoint =>
      obtain ⟨n, rfl, hshift⟩ := recoveryPoint_spec hpoint
      obtain ⟨value, hvalue⟩ := (h.shift _ (top_mem_of_drop n) _ _ hshift).1 c.token.text
      simp only [hvalue] at hrecover
      cases hdiscard : p.discard input next (p.syntaxError input (p.top c.stack) c.token) c.token
          c.ahead with
      | mk moves' result =>
        rw [hdiscard] at hrecover
        have hdone := (Prod.mk.inj hrecover).2
        cases result with
        | ok found => exact absurd hdone (by simp)
        | error e' =>
          obtain rfl : e' = e := Except.error.inj (Step.done.inj hdone)
          rcases hp.discard_eq_error hdiscard with rfl | ⟨le, hmem, rfl⟩
          · exact .unexpected haction
          · exact .stray hmem

/-- A step ends the parse with no other errors. -/
theorem Safe.fails_of_step (hp : p.Proper) (h : p.Safe input c) {moves : List Move} {e : ParseError}
    (hstep : p.step input c = (moves, .done (.error e))) : p.Fails input c e := by
  rw [Parser.step] at hstep
  split at hstep
  · next next haction =>
    have hshift := (Prod.mk.inj hstep).2
    obtain ⟨hvalue, hne, -⟩ := h.shift _ (top_mem_of_drop 0) _ _ haction
    obtain ⟨value, hvalue⟩ := hvalue c.token.text
    rw [hp.eof] at hne
    simp only [Parser.shift, hvalue] at hshift
    split at hshift
    · next e' hnext =>
      obtain rfl : e' = e := Except.error.inj (Step.done.inj hshift)
      obtain ⟨le, hmem, rfl⟩ := stray_of_nextToken hne hnext
      exact .stray hmem
    · exact absurd hshift (by simp)
  · next prod haction => exact h.fails_of_reduce haction (Prod.mk.inj hstep).2
  · next haction =>
    obtain ⟨-, state, v, hstack⟩ := h.accept haction
    have hfinish := Step.done.inj (Prod.mk.inj hstep).2
    rw [finish, hstack] at hfinish
    exact absurd hfinish (by simp)
  · next haction =>
    rw [Parser.stumble] at hstep
    split at hstep
    · exact h.fails_of_recover hp haction hstep
    · split at hstep
      · rw [← Except.error.inj (Step.done.inj (Prod.mk.inj hstep).2)]
        exact .unexpected haction
      · next heof =>
        rw [hp.eof] at heof
        have hnext := (Prod.mk.inj hstep).2
        split at hnext
        · next e' hnext' =>
          obtain rfl : e' = e := Except.error.inj (Step.done.inj hnext)
          obtain ⟨le, hmem, rfl⟩ := stray_of_nextToken heof hnext'
          exact .stray hmem
        · exact absurd hnext (by simp)

/-- A run that fails does so in a configuration that it goes through. -/
theorem Reached.fails_of_run (hp : p.Proper) (h : p.Reached input c) {fuel : Nat} {o : Outcome α}
    (hrun : p.run input fuel c = some o) {e : ParseError} (he : o.result = .error e) :
    ∃ c', p.Reached input c' ∧ p.Fails input c' e := by
  induction fuel generalizing c o with
  | zero => exact absurd hrun (by simp [Parser.run])
  | succ fuel ih =>
    rw [Parser.run] at hrun
    split at hrun
    · next moves result hstep =>
      obtain rfl := Option.some.inj hrun
      simp only at he
      rw [he] at hstep
      exact ⟨c, h, (h.safe hp).fails_of_step hp hstep⟩
    · next moves c' hstep =>
      obtain ⟨o', ho', rfl⟩ := Option.map_eq_some_iff.1 hrun
      exact ih (h.step hstep) ho' he

end Parser

/-- No parser fails on its own. Everything that it looks up is there in every configuration that the
parse of an input goes through, and the parse fails only where it should: at a stray character, at a
token without an action, or because a function of the user refuses its values. -/
theorem Blueprint.Declared.parse_safe {α : Type} {b : Blueprint α} (hb : b.Declared) {p : Parser α}
    (hp : b.build = .ok p) (input : String) :
    (∀ c, p.Reached input c → p.Safe input c) ∧
    p.grammar.WellFormed ∧
    (∀ e, p.grammar.error = some e → e < p.grammar.terminals.size) ∧
    (∀ tok ∈ p.lexer.tokens input, ∀ offset ∈ placesOf tok, IsBoundary input offset) ∧
    ∀ fuel o e, p.parseWithin fuel input = some o → o.result = .error e →
      (∃ le rest, p.lexer.tokens input = .error le :: rest ∧ e = Parser.lexError input le) ∨
      ∃ c, p.Reached input c ∧ p.Fails input c e := by
  have hproper := hb.proper hp
  refine ⟨fun c h => h.safe hproper, hproper.wellFormed, hproper.error_lt, hproper.boundaries input, ?_⟩
  intro fuel o e hparse he
  rw [Parser.parseWithin] at hparse
  split at hparse
  · next e' hnext =>
    obtain rfl := Option.some.inj hparse
    obtain rfl : e' = e := Except.error.inj he
    left
    rw [Lexer.tokens, Lexer.tokensFrom_of_scan]
    rw [Parser.nextToken] at hnext
    split at hnext
    · exact absurd hnext (by simp)
    · next le after hscan => exact ⟨le, _, by rw [hscan], (Except.error.inj hnext).symm⟩
    · exact absurd hnext (by simp)
  · next token ahead hnext =>
    exact Or.inr ((Parser.Reached.start hnext).fails_of_run hproper hparse he)

/-- After the second letter the parser recovers, and it is safe to go on. -/
theorem Blueprint.Declared.parse_safe_letter : ∃ p c, Blueprint.letter.build = .ok p ∧
    p.Reached "aa" c ∧ c.recovered.isSome ∧ c.stack.length = 1 ∧ p.Safe "aa" c := by
  obtain ⟨p, hp, hafter⟩ := Blueprint.exists_build (b := Blueprint.letter)
    (P := fun p => (p.configAfter "aa" 2).map
      (fun c => (c.recovered.isSome, c.stack.length)) = some (true, 1)) (by decide +kernel)
  obtain ⟨c, hc, heq⟩ := Option.map_eq_some_iff.1 hafter
  obtain ⟨hrecovered, hlength⟩ := Prod.mk.inj heq
  have hreached := Parser.reached_of_configAfter hc
  exact ⟨p, c, hp, hreached, hrecovered, hlength,
    (Blueprint.declared_letter.parse_safe hp "aa").1 c hreached⟩

end ShiftReduce
