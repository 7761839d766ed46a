import ShiftReduce.Proofs.Lalr.ViablePrefix
import ShiftReduce.Proofs.Parser.Endless
import ShiftReduce.Proofs.Parser.FailedRecovery

/-!
# Where a parse fails

A parser of a productive grammar without a terminal for wrong input, for which no conflict had to be
settled, fails at the first token that is wrong: the tokens before it are the beginning of a sentence, and
with it they are not (`Blueprint.Declared.fails_at_first_mistake`). It may have reduced something on the
wrong token, but it has not shifted it.

The terminals that the error lists as expected are those that have an action in the state in which the
parser was when it failed (`Blueprint.Declared.expected_in_state`). These are the terminals that come next
in this state in the parse of some sentence, be it one that begins with other tokens. If the parser has
reduced something on the wrong token, terminals are missing that could have come instead of it, and if a
production could be reduced on some terminal only because it could elsewhere, that terminal is listed for
nothing (`Parser.misleading_suffix`).
-/

namespace ShiftReduce

open Text
open Tables (Stacked turn topState)
open StateTransition (Reaches)

/-- The bytes of a token. -/
def Token.span (t : Token) : Span := ⟨t.start, t.stop⟩

/-- The input ended too early. -/
def ParseError.IsEnd : ParseError → Prop
  | unexpectedEnd .. => True
  | _ => False

/-! ### The order of tokens -/

/-- Where a token or a stray character begins. -/
def startOf : Except LexError Token → Nat
  | .ok t => t.start
  | .error e => e.start

theorem ascending_cons {toks : List (Except LexError Token)} {tok : Except LexError Token} {next : Nat}
    (hlt : startOf tok < next)
    (h : (toks.map startOf).Pairwise (· < ·) ∧ ∀ tok ∈ toks, next ≤ startOf tok) :
    ((tok :: toks).map startOf).Pairwise (· < ·) ∧
      ∀ tok' ∈ tok :: toks, startOf tok ≤ startOf tok' := by
  have hbehind : ∀ tok' ∈ toks, startOf tok < startOf tok' := fun tok' htok' =>
    Nat.lt_of_lt_of_le hlt (h.2 tok' htok')
  refine ⟨List.pairwise_cons.2 ⟨List.forall_mem_map.2 hbehind, h.1⟩, ?_⟩
  exact List.forall_mem_cons.2 ⟨Nat.le_refl _, fun tok' htok' => Nat.le_of_lt (hbehind tok' htok')⟩

/-- Each token begins behind the one before it. -/
theorem Decomposes.ascending {ps : List Pattern} {eof pos : Nat} {cs : List Char}
    {toks : List (Except LexError Token)} (h : Decomposes ps eof pos cs toks) :
    (toks.map startOf).Pairwise (· < ·) ∧ ∀ tok ∈ toks, pos ≤ startOf tok := by
  induction h with
  | ending =>
    refine ⟨List.pairwise_singleton _ _, fun tok htok => ?_⟩
    rw [List.mem_singleton.1 htok]
    exact Nat.le_refl _
  | token hmunched _ _ ih =>
    exact ascending_cons (Nat.lt_add_of_pos_right (byteLength_pos hmunched.ne_nil)) ih
  | skipped _ _ _ ih => exact ⟨ih.1, fun tok htok => Nat.le_of_add_right_le (ih.2 tok htok)⟩
  | @stray _ c _ _ _ _ ih => exact ascending_cons (Nat.lt_add_of_pos_right c.utf8Size_pos) ih

namespace Tables

/-- What is listed as expected in a state are the terminals with an action. -/
theorem mem_expected {t : Tables} {i a : Nat} : a ∈ t.expected i ↔ t.actionAt i a ≠ .error := by
  rw [expected, actionAt]
  cases hrow : t.action[i]? with
  | none => simp
  | some row =>
    simp only [Option.getD_some, List.mem_map, List.mem_filter, decide_eq_true_eq, Prod.exists,
      exists_eq_right, List.mk_mem_zipIdx_iff_getElem?, Array.getElem?_toList, Option.bind_some]
    cases row[a]? with
    | none => simp
    | some action => simp

theorem pairwise_expected (t : Tables) (i : Nat) : (t.expected i).Pairwise (· < ·) := by
  rw [expected]
  refine List.Pairwise.sublist (List.filter_sublist.map _) ?_
  rw [List.zipIdx_map_snd]
  exact List.pairwise_lt_range'

end Tables

namespace Parser

variable {α : Type} {p : Parser α} {input : String} {c c' : Config α} {o : Outcome α} {e : ParseError}
  {moves moves' : List Move} {tokens read : List Token} {stop token : Token}
  {rest : List (Except LexError Token)} {stack : List (Nat × Tree)} {reduced : List Nat}
  {forest : List Tree}

/-- An input without stray characters is a list of tokens and the end. -/
theorem Proper.exists_tokens (hp : p.Proper) (hclean : ∀ le, .error le ∉ p.lexer.tokens input) :
    ∃ (tokens : List Token) (stop : Token),
      stop = ⟨p.grammar.eof, "", input.utf8ByteSize, input.utf8ByteSize⟩ ∧
      p.lexer.tokens input = tokens.map .ok ++ [.ok stop] := by
  obtain ⟨front, hfront⟩ := (hp.lexer.decomposes_tokensFrom 0 input.toList).exists_ending
  rw [Nat.zero_add, ← utf8ByteSize_ofList, String.ofList_toList] at hfront
  have hfront : p.lexer.tokens input = _ := hfront
  have hok : front ∈ Set.range (List.map Except.ok) := by
    rw [Set.range_list_map]
    intro tok htok
    cases tok with
    | ok token => exact ⟨token, rfl⟩
    | error le =>
      refine absurd ?_ (hclean le)
      rw [hfront]
      exact List.mem_append_left _ htok
  obtain ⟨tokens, rfl⟩ := hok
  exact ⟨tokens, _, rfl, hfront⟩

/-- The tokens before a token of an input without stray characters. It is the last one, or the one that
comes next. -/
theorem tokens_cases (h : tokens.map .ok ++ [.ok stop] =
      (read.map .ok ++ .ok token :: rest : List (Except LexError Token))) :
    tokens = read ∧ stop = token ∨ ∃ unread, tokens = read ++ token :: unread := by
  rcases List.eq_nil_or_concat rest with rfl | ⟨init, last, rfl⟩
  · exact Or.inl (tokens_inj h)
  · rw [List.concat_eq_append, ← List.cons_append, ← List.append_assoc] at h
    obtain ⟨front, back, rfl, hfront, hback⟩ := List.map_eq_append_iff.1 (List.append_inj' h rfl).1
    obtain ⟨token', unread, rfl, htoken, -⟩ := List.map_eq_cons_iff.1 hback
    obtain rfl := Except.ok.inj htoken
    have hinj : Function.Injective (Except.ok : Token → Except LexError Token) :=
      fun _ _ h => Except.ok.inj h
    rw [List.map_injective_iff.2 hinj hfront]
    exact Or.inr ⟨unread, rfl⟩

/-- The bytes of a token tell its place among the tokens. -/
theorem Proper.span_eq_iff (hp : p.Proper)
    (htokens : p.lexer.tokens input = read.map .ok ++ .ok token :: rest) {j : Nat} {t : Token}
    (hj : (p.lexer.tokens input)[j]? = some (.ok t)) : t.span = token.span ↔ j = read.length := by
  have hk : (p.lexer.tokens input)[read.length]? = some (.ok token) := by
    rw [htokens, List.getElem?_append_right (by simp), List.length_map, Nat.sub_self,
      List.getElem?_cons_zero]
  constructor
  · intro hspan
    have hascending := (hp.lexer.decomposes_tokensFrom 0 input.toList).ascending.1
    have hstart : ((p.lexer.tokens input).map startOf)[j]? =
        ((p.lexer.tokens input).map startOf)[read.length]? := by
      rw [List.getElem?_map, List.getElem?_map, hj, hk]
      exact congrArg (fun span : Span => some span.start) hspan
    have hlt : j < ((p.lexer.tokens input).map startOf).length := by
      rw [List.length_map]
      exact (List.getElem?_eq_some_iff.1 hj).1
    exact (List.getElem?_inj hlt (hascending.imp Nat.ne_of_lt)).1 hstart
  · rintro rfl
    rw [Except.ok.inj (Option.some.inj (hj.symm.trans hk))]

theorem Proper.index_iff (hp : p.Proper)
    (htokens : p.lexer.tokens input = tokens.map .ok ++ [.ok stop])
    (hsplit : p.lexer.tokens input = read.map .ok ++ .ok token :: rest) {j : Nat} :
    (tokens ++ [stop])[j]?.map Token.span = some token.span ↔ j = read.length := by
  have hall : ∀ {i : Nat} {t : Token}, (p.lexer.tokens input)[i]? = some (.ok t) ↔
      (tokens ++ [stop])[i]? = some t := by
    intro i t
    rw [htokens, ← List.map_singleton, ← List.map_append, List.getElem?_map]
    simp
  constructor
  · intro hj
    obtain ⟨t, ht, hspan⟩ := Option.map_eq_some_iff.1 hj
    exact (hp.span_eq_iff hsplit (hall.2 ht)).1 hspan
  · rintro rfl
    have htoken : (p.lexer.tokens input)[read.length]? = some (.ok token) := by
      rw [hsplit, List.getElem?_append_right (by simp), List.length_map, Nat.sub_self,
        List.getElem?_cons_zero]
    rw [hall.1 htoken, Option.map_some]

theorem span_syntaxError (p : Parser α) (input : String) (state : Nat) (token : Token) :
    (p.syntaxError input state token).span = token.span := by
  rw [syntaxError]
  split
  · rfl
  · rfl

theorem state?_syntaxError (p : Parser α) (input : String) (state : Nat) (token : Token) :
    (p.syntaxError input state token).state? = some state := by
  rw [syntaxError]
  split
  · rfl
  · rfl

/-- Without a terminal for wrong input all terminals with an action are listed. -/
theorem expected_syntaxError (hnone : p.grammar.error = none) (input : String) (state : Nat)
    (token : Token) : (p.syntaxError input state token).expected =
      (p.tables.expected state).map p.grammar.terminalName := by
  have hall : ((p.tables.expected state).filter fun t => p.grammar.error ≠ some t) =
      p.tables.expected state := by
    rw [hnone]
    simp
  rw [syntaxError, hall]
  split
  · rfl
  · rfl

theorem isEnd_syntaxError_iff {state : Nat} {token : Token} :
    (p.syntaxError input state token).IsEnd ↔ token.terminal = p.tables.eof := by
  rw [syntaxError]
  split
  · next heof => exact iff_of_true trivial heof
  · next heof => exact iff_of_false id heof

/-! ### The tables read what the parser reads -/

/-- The parser has read some tokens and made the moves, without a recovery. The tables by themselves read
these tokens too and come to the same states, with trees on their stack, whatever stands behind the token
that the parser looks at. If the last move is no reduction, it does not matter what stands there
instead of this token either. -/
structure Follows (p : Parser α) (input : String) (moves : List Move) (c : Config α) (read : List Token)
    (stack : List (Nat × Tree)) (reduced : List Nat) (forest : List Tree) : Prop where
  sound : p.Sound input none c read forest
  trees : Stacked p.grammar Eq stack forest
  reaches : ∀ left, moves.getLast?.bind Move.reduced? = none ∨ p.tables.coming left = c.token.terminal →
    Reaches (turn p.grammar p.tables) ⟨[], read.map Token.word ++ left, []⟩ ⟨stack, left, reduced⟩

theorem Follows.topState_eq (h : p.Follows input moves c read stack reduced forest) :
    topState c.stack = topState stack :=
  Option.some.inj (h.sound.stacked.walk_topState.symm.trans h.trees.walk_topState)

/-- Without a terminal for wrong input there has been no recovery. -/
theorem Sound.shifted_of_none (h : p.Sound input none c read forest) : c.shifted = true := by
  by_contra hshifted
  obtain ⟨-, -, -, _, -, -, -, -, he⟩ := h.last (Bool.not_eq_true _ ▸ hshifted)
  exact absurd he (by simp)

/-- A token that has no action ends the parse, if there is no terminal for wrong input. -/
theorem Sound.step_of_error (h : p.Sound input none c read forest) (hnone : p.grammar.error = none)
    (haction : p.tables.actionAt (p.top c.stack) c.token.terminal = .error) :
    p.step input c = ([], .done (.error (p.syntaxError input (p.top c.stack) c.token))) := by
  rw [Parser.step_of_error haction h.shifted_of_none, Parser.recover, hnone]

theorem Follows.shift (hp : p.Proper) (h : p.Follows input moves c read stack reduced forest)
    {next : Nat} (haction : p.tables.actionAt (p.top c.stack) c.token.terminal = .shift next)
    (hstep : p.shift input c next = .next c') (moves' : List Move) :
    p.Follows input moves' c' (read ++ [c.token]) ((next, .leaf c.token.word) :: stack) reduced
      (.leaf c.token.word :: forest) := by
  have haction' : p.tables.actionAt (topState stack) c.token.word.1 = .shift next := by
    rw [← h.topState_eq, ← hp.top_eq]
    exact haction
  refine
    { sound := h.sound.shift hp haction hstep
      trees := h.trees.shift hp.wellFormed hp.made haction' rfl
      reaches := fun left _ => ?_ }
  rw [List.map_append, List.append_assoc]
  exact (h.reaches (c.token.word :: left) (Or.inr rfl)).tail (Tables.turn_shift haction')

theorem Follows.reduce (hp : p.Proper) (h : p.Follows input moves c read stack reduced forest)
    {prod : Nat} (haction : p.tables.actionAt (p.top c.stack) c.token.terminal = .reduce prod)
    (hstep : p.reduce input c prod = .next c') (state : Nat) : ∃ next,
    p.Follows input (moves ++ [.reduce state prod]) c' read
      ((next, .node prod (forest.take (p.grammar.rhs prod).length).reverse) ::
        stack.drop (p.grammar.rhs prod).length) (reduced ++ [prod])
      (.node prod (forest.take (p.grammar.rhs prod).length).reverse ::
        forest.drop (p.grammar.rhs prod).length) := by
  have haction' : p.tables.actionAt (topState stack) c.token.terminal = .reduce prod := by
    rw [← h.topState_eq, ← hp.top_eq]
    exact haction
  have hprod := (h.trees.roots_of_reduce hp.wellFormed hp.made haction').1
  obtain ⟨v, next, -, hgoto, rfl⟩ := reduce_eq_next hstep
  have hgoto' : p.tables.gotoAt (topState (stack.drop (p.grammar.rhs prod).length))
      (p.grammar.lhs prod) = some next := by
    rw [hp.top_eq, hp.arity_eq hprod, hp.target_eq hprod] at hgoto
    rw [← Option.some.inj ((h.sound.stacked.drop _).walk_topState.symm.trans
      (h.trees.drop _).walk_topState)]
    exact hgoto
  refine ⟨next,
    { sound := h.sound.reduce hp haction hstep
      trees := h.trees.reduce hp.wellFormed hp.made haction' hgoto' rfl
      reaches := fun left hleft => ?_ }⟩
  -- the last move is a reduction, so the token is the one that comes next
  rw [List.getLast?_append, List.getLast?_singleton, Option.some_or, Option.bind_some] at hleft
  have hcoming := hleft.resolve_left (by simp [Move.reduced?])
  refine (h.reaches left (Or.inr hcoming)).tail (Tables.turn_reduce h.trees ?_ hgoto' reduced)
  rw [hcoming]
  exact haction'

/-- The tables keep up with every step. -/
theorem Follows.step (hp : p.Proper) (hnone : p.grammar.error = none)
    (h : p.Follows input moves c read stack reduced forest)
    (hstep : p.step input c = (moves', .next c')) : ∃ read' stack' reduced' forest',
      p.Follows input (moves ++ moves') c' read' stack' reduced' forest' := by
  rcases step_cases hstep with ⟨next, haction, rfl, hshift⟩ | ⟨prod, haction, rfl, hreduce⟩ |
    ⟨haction, -⟩
  · exact ⟨_, _, _, _, h.shift hp haction hshift _⟩
  · obtain ⟨next, h'⟩ := h.reduce hp haction hreduce _
    exact ⟨_, _, _, _, h'⟩
  · rw [h.sound.step_of_error hnone haction] at hstep
    exact absurd (Prod.mk.inj hstep).2 (by simp)

/-- The tables keep up with a run that ends with a syntax error. It ends at a token that has no action. -/
theorem Follows.run (hp : p.Proper) (hnone : p.grammar.error = none)
    (h : p.Follows input moves c read stack reduced forest) (hreached : p.Reached input c) {fuel : Nat}
    (hrun : p.run input fuel c = some o) (hresult : o.result = .error e) (he : e.IsSyntax) :
    ∃ c' read' stack' reduced' forest',
      p.Follows input (moves ++ o.moves) c' read' stack' reduced' forest' ∧
      p.tables.actionAt (topState stack') c'.token.terminal = .error ∧
      e = p.syntaxError input (topState stack') c'.token := by
  induction fuel generalizing c moves read stack reduced forest o with
  | zero => exact absurd hrun (by simp [Parser.run])
  | succ fuel ih =>
    cases hstep : p.step input c with
    | mk moves' result =>
      cases result with
      | done result =>
        rw [run_of_done hstep] at hrun
        obtain rfl := Option.some.inj hrun
        obtain rfl : result = .error e := hresult
        obtain ⟨haction, heq⟩ := ((hreached.safe hp).fails_of_step hp hstep).eq_of_isSyntax he
        rw [h.sound.step_of_error hnone haction] at hstep
        obtain rfl := (Prod.mk.inj hstep).1
        rw [hp.top_eq, h.topState_eq] at haction heq
        exact ⟨c, read, stack, reduced, forest, by rwa [List.append_nil], haction, heq⟩
      | next c' =>
        rw [run_of_next hstep] at hrun
        obtain ⟨o', ho', rfl⟩ := Option.map_eq_some_iff.1 hrun
        obtain ⟨_, _, _, _, h'⟩ := h.step hp hnone hstep
        have hends := ih h' (hreached.step hstep) ho' hresult
        rwa [List.append_assoc] at hends

/-- The tables keep up with a parse that ends with a syntax error, from its beginning on. -/
theorem Proper.exists_follows (hp : p.Proper) (hnone : p.grammar.error = none) {fuel : Nat}
    (ho : p.parseWithin fuel input = some o) (hresult : o.result = .error e) (he : e.IsSyntax) :
    ∃ c read stack reduced forest, p.Follows input o.moves c read stack reduced forest ∧
      p.tables.actionAt (topState stack) c.token.terminal = .error ∧
      e = p.syntaxError input (topState stack) c.token := by
  rw [parseWithin] at ho
  split at ho
  · next e' hnext =>
    obtain rfl := Option.some.inj ho
    obtain rfl : e' = e := Except.error.inj hresult
    rw [nextToken] at hnext
    split at hnext
    · exact absurd hnext (by simp)
    · rw [← Except.error.inj hnext] at he
      exact he.elim
    · exact absurd hnext (by simp)
  · next token ahead hnext =>
    have hstart : p.Follows input [] ⟨[], token, ahead, none, true⟩ [] [] [] [] :=
      { sound := hp.sound_start hnext, trees := .nil, reaches := fun _ _ => .refl }
    exact hstart.run hp hnone (.start hnext) ho hresult he

theorem Follows.words_eq (h : p.Follows input moves c read stack reduced forest) :
    (wordsOf forest).map Prod.fst = read.map Token.terminal := by
  rw [h.sound.patched.eq_map, List.map_map]
  rfl

/-- The tokens that have been read are the beginning of a sentence. One that has no action does not
continue them. -/
theorem Follows.mistake (h : p.Follows input moves c read stack reduced forest)
    (hfree : Tables.ConflictFree p.grammar p.tables) (hproductive : p.grammar.Productive)
    (haction : p.tables.actionAt (topState stack) c.token.terminal = .error) :
    p.grammar.IsViable (read.map Token.terminal) ∧
      ¬ p.grammar.Continues (read.map Token.terminal) c.token.terminal := by
  obtain ⟨words, hwords, hmistake⟩ :=
    hfree.stuck_at_mistake hproductive (h.reaches [c.token.word] (Or.inr rfl)) haction
  rw [← List.append_cancel_right hwords, List.map_map] at hmistake
  exact hmistake

end Parser

/-- Without a terminal for wrong input and without conflicts, a parse of a productive grammar that fails
with a syntax error fails at the first token that is wrong. The bytes of the error are those of just one
token, the tokens before it are the beginning of a sentence, and they are not with it; or this is the
token that marks the end, and all the tokens before it are no sentence. -/
theorem Blueprint.Declared.fails_at_first_mistake {α : Type} {b : Blueprint α} (hb : b.Declared)
    {p : Parser α} (hp : b.build = .ok p) (hall : p.grammar.ListsAll)
    (hres : p.tables.resolutions = []) (hnone : p.grammar.error = none)
    (hproductive : p.grammar.Productive) {input : String}
    (hclean : ∀ le, .error le ∉ p.lexer.tokens input) {fuel : Nat} {o : Outcome α}
    (ho : p.parseWithin fuel input = some o) {e : ParseError} (hresult : o.result = .error e)
    (he : e.IsSyntax) : ∃ (tokens : List Token) (stop : Token) (k : Nat),
      stop = ⟨p.grammar.eof, "", input.utf8ByteSize, input.utf8ByteSize⟩ ∧
      p.lexer.tokens input = tokens.map .ok ++ [.ok stop] ∧
      (∀ j, (tokens ++ [stop])[j]?.map Token.span = some e.span ↔ j = k) ∧
      p.grammar.IsViable ((tokens.take k).map Token.terminal) ∧
      (e.IsEnd → k = tokens.length ∧ ¬ p.grammar.IsSentence (tokens.map Token.terminal)) ∧
      (¬ e.IsEnd → k < tokens.length ∧
        ¬ p.grammar.IsViable ((tokens.take (k + 1)).map Token.terminal)) := by
  have hproper := hb.proper hp
  have hfree := hproper.conflictFree hall hres
  obtain ⟨tokens, stop, hstop, htokens⟩ := hproper.exists_tokens hclean
  obtain ⟨c, read, stack, reduced, forest, hfollows, haction, rfl⟩ :=
    hproper.exists_follows hnone ho hresult he
  obtain ⟨hviable, hmistake⟩ := hfollows.mistake hfree hproductive haction
  rw [Parser.span_syntaxError, Parser.isEnd_syntaxError_iff, hproper.eof]
  refine ⟨tokens, stop, read.length, hstop, htokens,
    fun j => hproper.index_iff htokens hfollows.sound.split, ?_⟩
  rcases Parser.tokens_cases (htokens.symm.trans hfollows.sound.split) with ⟨rfl, rfl⟩ | ⟨unread, rfl⟩
  · have heof : c.token.terminal = p.grammar.eof := by rw [hstop]
    rw [heof, Grammar.continues_eof_iff hproper.wellFormed] at hmistake
    rw [List.take_length]
    exact ⟨hviable, fun _ => ⟨rfl, hmistake⟩, fun hne => absurd heof hne⟩
  · have hne : c.token.terminal ≠ p.grammar.eof :=
      hproper.words_ne_eof htokens c.token.word (List.mem_map_of_mem (by simp))
    refine ⟨by rwa [List.take_left], fun heq => absurd heq hne, fun _ => ⟨by simp, fun hviable' => ?_⟩⟩
    rw [List.take_length_add_append, List.map_append] at hviable'
    exact hmistake (Or.inr hviable')

/-- The second `b` is the first mistake in `abb`, although the outer pair is reduced on it. -/
theorem Blueprint.Declared.fails_at_first_mistake_pairs : ∃ (p : Parser String) (o : Outcome String)
    (e : ParseError), Blueprint.pairs.build = .ok p ∧ p.parseWithin 20 "abb" = some o ∧
    o.result = .error e ∧ o.lastReduction? = some 0 ∧ e.span = ⟨2, 3⟩ ∧
    p.grammar.IsViable [0, 1] ∧ ¬ p.grammar.IsViable [0, 1, 1] := by
  obtain ⟨p, hp, hall, hres, hnone, hnts, hprods, hrhs, hlhs, htokens, hparse⟩ :=
    Blueprint.exists_build (b := Blueprint.pairs)
    (P := fun p => p.grammar.ListsAll ∧ p.tables.resolutions = [] ∧ p.grammar.error = none ∧
      p.grammar.nts.size = 1 ∧ 1 < p.grammar.prods.size ∧ p.grammar.rhs 1 = [] ∧
      p.grammar.lhs 1 = 0 ∧
      p.lexer.tokens "abb" = List.map .ok [⟨0, "a", 0, 1⟩, ⟨1, "b", 1, 2⟩, ⟨1, "b", 2, 3⟩] ++
        [.ok ⟨p.grammar.eof, "", 3, 3⟩] ∧
      ((p.parseWithin 20 "abb").map fun o => (o.lastReduction?, o.error?)) =
        some (some 0, some (.unexpectedToken "b" "b" ⟨2, 3⟩ ⟨1, 3⟩ 1 ["$end"])))
    (by decide +kernel)
  obtain ⟨o, ho, heq⟩ := Option.map_eq_some_iff.1 hparse
  obtain ⟨hlast, herror⟩ := Prod.mk.inj heq
  have hresult := Outcome.error?_eq_some_iff.1 herror
  have hproductive : p.grammar.Productive := by
    refine (Blueprint.declared_pairs.proper hp).wellFormed.productive fun n hn => ?_
    obtain rfl : n = p.grammar.lhs 1 := by omega
    exact Grammar.exists_text_of_rhs hprods (by simp [hrhs])
  obtain ⟨tokens, stop, k, -, htokens', hindex, hviable, -, hmistake⟩ :=
    Blueprint.declared_pairs.fails_at_first_mistake hp hall hres hnone hproductive
      (by simp [htokens]) ho hresult trivial
  obtain ⟨rfl, rfl⟩ := Parser.tokens_inj (htokens.symm.trans htokens')
  obtain rfl : 2 = k := (hindex 2).1 rfl
  exact ⟨p, o, _, hp, ho, hresult, hlast, rfl, hviable, (hmistake id).2⟩

/-- What an error lists as expected, under the same conditions, of which it does not need the one that the
input has no stray characters: behind the mistake there may be any. The terminals are those that come next,
in the state in which the parse has failed, on the way to the tree of some sentence. Each of them that is
not there because of a reduction may come behind the tokens before the mistake, and if nothing was
reduced on the mistake, no terminal that may come there is missing. -/
theorem Blueprint.Declared.expected_in_state {α : Type} {b : Blueprint α} (hb : b.Declared)
    {p : Parser α} (hp : b.build = .ok p) (hall : p.grammar.ListsAll)
    (hres : p.tables.resolutions = []) (hnone : p.grammar.error = none)
    (hproductive : p.grammar.Productive) {input : String} {fuel : Nat} {o : Outcome α}
    (ho : p.parseWithin fuel input = some o) {e : ParseError} (hresult : o.result = .error e)
    (he : e.IsSyntax) : ∃ (read : List Token) (token : Token) (rest : List (Except LexError Token))
      (q : Nat) (listed : List Nat),
      p.lexer.tokens input = read.map .ok ++ .ok token :: rest ∧
      (∀ (j : Nat) (t : Token), (p.lexer.tokens input)[j]? = some (.ok t) →
        (t.span = e.span ↔ j = read.length)) ∧
      e.state? = some q ∧ e.expected = listed.map p.grammar.terminalName ∧
      listed.Pairwise (· < ·) ∧
      (∀ a, a ∈ listed ↔ ∃ (words : List Word) (tree : Tree) (s : Stage),
        tree.Parses p.grammar words ∧ Reaches (turn p.grammar p.tables) ⟨[], words, []⟩ s ∧
        topState s.stack = q ∧ p.tables.coming s.left = a) ∧
      (∀ a ∈ listed, (∀ prod, p.tables.actionAt q a ≠ .reduce prod) →
        p.grammar.Continues (read.map Token.terminal) a) ∧
      (o.lastReduction? = none → ∀ a,
        p.grammar.Continues (read.map Token.terminal) a → a ∈ listed) := by
  have hproper := hb.proper hp
  have hfree := hproper.conflictFree hall hres
  obtain ⟨c, read, stack, reduced, forest, hfollows, -, rfl⟩ :=
    hproper.exists_follows hnone ho hresult he
  have hsplit : p.lexer.tokens input = read.map .ok ++ .ok c.token :: _ := hfollows.sound.split
  refine ⟨read, c.token, _, topState stack, p.tables.expected (topState stack), hsplit, ?_,
    Parser.state?_syntaxError p input _ _, Parser.expected_syntaxError hnone input _ _,
    Tables.pairwise_expected _ _, ?_, ?_, ?_⟩
  · intro j t hj
    rw [Parser.span_syntaxError]
    exact hproper.span_eq_iff hsplit hj
  · intro a
    rw [Tables.mem_expected]
    exact hfree.action_ne_error_iff hproductive hfollows.trees.walk_topState
  · intro a ha hreduce
    obtain ⟨δ, -, hmay, hδ⟩ := hfree.mayFollow hfree.wellFormed hfollows.trees.walk_topState
      (Tables.mem_expected.1 ha)
    rw [hδ hreduce] at hmay
    rw [← hfollows.words_eq]
    exact hmay.continues hfree.wellFormed hproductive (derives_wordsOf hfollows.trees.isDerivation)
  · intro hlast a hcontinues
    refine Tables.mem_expected.2 (hfree.action_ne_error_of_continues ?_
      fun left _ => hfollows.reaches left (Or.inl hlast))
    rwa [List.map_map]

/-- Declarations for a parser of `a A x` and `b A y`, of which the middle `A` is `c` or `c d`. -/
def Blueprint.contexts : Blueprint String :=
  let b : Blueprint String := .empty
  let b := b.setLiteralValue id
  let b := (b.nonterminal "S").1
  let b := (b.nonterminal "A").1
  let b := (b.production 0 [.terminal (.literal "a"), .nonterminal 1, .terminal (.literal "x")]).1
  let b := (b.production 0 [.terminal (.literal "b"), .nonterminal 1, .terminal (.literal "y")]).1
  let b := (b.production 1 [.terminal (.literal "c")]).1
  (b.production 1 [.terminal (.literal "c"), .terminal (.literal "d")]).1

theorem Blueprint.declared_contexts : Blueprint.contexts.Declared := by
  refine .production (.production (.production (.production ?_ _ _) _ _) _ _) _ _
  exact .nonterminal (.nonterminal (.setLiteralValue .empty _) _) _

/-- The parser of `a A x` and `b A y` satisfies the conditions. -/
theorem Blueprint.exists_build_contexts {P : Parser String → Prop} [DecidablePred P]
    (h : (Blueprint.contexts.build.toOption.map fun p => decide (P p)) = some true) :
    ∃ p, Blueprint.contexts.build = .ok p ∧ p.grammar.ListsAll ∧ p.tables.resolutions = [] ∧
      p.grammar.error = none ∧ p.grammar.Productive ∧ p.grammar.IsSentence [0, 4, 5, 1] ∧ P p := by
  obtain ⟨p, hp, hP⟩ := Blueprint.exists_build h
  obtain ⟨p', hp', hall, hres, hnone, hnts, hprods, hstart, hlhs₀, hrhs₀, hlhs₃, hrhs₃⟩ :=
    Blueprint.exists_build (b := Blueprint.contexts)
    (P := fun p => p.grammar.ListsAll ∧ p.tables.resolutions = [] ∧ p.grammar.error = none ∧
      p.grammar.nts.size = 2 ∧ p.grammar.prods.size = 4 ∧ p.grammar.start = 0 ∧
      p.grammar.lhs 0 = 0 ∧ p.grammar.rhs 0 = [.terminal 0, .nonterminal 1, .terminal 1] ∧
      p.grammar.lhs 3 = 1 ∧ p.grammar.rhs 3 = [.terminal 4, .terminal 5])
    (by decide +kernel)
  obtain rfl := Except.ok.inj (hp.symm.trans hp')
  have hS : p.grammar.Derives [.nonterminal 0] [.terminal 0, .nonterminal 1, .terminal 1] := by
    have hderives := Grammar.derives_rhs (g := p.grammar) (p := 0) (by omega) []
    rwa [hlhs₀, hrhs₀] at hderives
  have hA : p.grammar.Derives [.nonterminal 1] [.terminal 4, .terminal 5] := by
    have hderives := Grammar.derives_rhs (g := p.grammar) (p := 3) (by omega) []
    rwa [hlhs₃, hrhs₃] at hderives
  have hsentence : p.grammar.Derives [.nonterminal 0]
      ([0, 4, 5, 1].map .terminal) :=
    hS.trans ((hA.append_right [.terminal 1]).append_left [.terminal 0])
  refine ⟨p, hp, hall, hres, hnone, ?_, ?_, hP⟩
  · refine (Blueprint.declared_contexts.proper hp).wellFormed.productive fun n hn => ?_
    obtain rfl | rfl : n = 0 ∨ n = 1 := by omega
    · exact ⟨_, hsentence⟩
    · exact ⟨[4, 5], hA⟩
  · rw [Grammar.IsSentence, hstart]
    exact hsentence

/-- After `ac` the third letter of `acc` is refused at once. Then every terminal that may come there is
listed, and `y` is as well, which comes in the same state in the parse of some other sentence. -/
theorem Blueprint.Declared.expected_in_state_contexts : ∃ (p : Parser String) (o : Outcome String)
    (e : ParseError), Blueprint.contexts.build = .ok p ∧ p.parseWithin 20 "acc" = some o ∧
    o.result = .error e ∧ o.lastReduction? = none ∧ e.expected = ["'x'", "'y'", "'d'"] ∧
    (∀ a, p.grammar.Continues [0, 4] a → p.grammar.terminalName a ∈ e.expected) ∧
    ∃ (words : List Word) (tree : Tree) (s : Stage), tree.Parses p.grammar words ∧
      Reaches (turn p.grammar p.tables) ⟨[], words, []⟩ s ∧ topState s.stack = 5 ∧
      p.grammar.terminalName (p.tables.coming s.left) = "'y'" := by
  obtain ⟨p, hp, hall, hres, hnone, hproductive, -, htokens, hparse⟩ :=
    Blueprint.exists_build_contexts (P := fun p =>
      p.lexer.tokens "acc" = List.map .ok [⟨0, "a", 0, 1⟩, ⟨4, "c", 1, 2⟩, ⟨4, "c", 2, 3⟩] ++
        [.ok ⟨p.grammar.eof, "", 3, 3⟩] ∧
      ((p.parseWithin 20 "acc").map fun o => (o.lastReduction?, o.error?)) = some (none,
        some (.unexpectedToken "'c'" "c" ⟨2, 3⟩ ⟨1, 3⟩ 5 ["'x'", "'y'", "'d'"])))
    (by decide +kernel)
  obtain ⟨o, ho, heq⟩ := Option.map_eq_some_iff.1 hparse
  obtain ⟨hlast, herror⟩ := Prod.mk.inj heq
  have hresult := Outcome.error?_eq_some_iff.1 herror
  obtain ⟨read, token, rest, q, listed, hsplit, hindex, hq, hlisted, -, hused, -, hmissing⟩ :=
    Blueprint.declared_contexts.expected_in_state hp hall hres hnone hproductive ho hresult trivial
  have hlength : 2 = read.length := (hindex 2 ⟨4, "c", 2, 3⟩ (by rw [htokens]; rfl)).1 rfl
  obtain ⟨a, c, rfl⟩ := List.length_eq_two.1 hlength.symm
  have hread := htokens.symm.trans hsplit
  simp only [List.map_cons, List.cons_append, List.cons.injEq, Except.ok.injEq] at hread
  obtain ⟨rfl, rfl, -⟩ := hread
  obtain rfl : 5 = q := Option.some.inj hq
  obtain ⟨a, ha, hname⟩ : ∃ a ∈ listed, p.grammar.terminalName a = "'y'" := by
    rw [← List.mem_map, ← hlisted]
    simp [ParseError.expected]
  obtain ⟨words, tree, s, htree, hreaches, hstate, rfl⟩ := (hused a).1 ha
  refine ⟨p, o, _, hp, ho, hresult, hlast, rfl, fun a ha => ?_, words, tree, s, htree, hreaches, hstate,
    hname⟩
  rw [hlisted]
  exact List.mem_map_of_mem (hmissing hlast a ha)

/-- After `ac` the letter `y` would be right if the text had begun with `b`. The parser of `acy` reduces the
middle on it, and then it no longer expects `d`, although `acd` is the beginning of a sentence. -/
theorem Parser.misleading_suffix : ∃ b : Blueprint String, b.Declared ∧ ∃ (p : Parser String)
    (o : Outcome String) (e : ParseError), b.build = .ok p ∧ p.grammar.ListsAll ∧
    p.tables.resolutions = [] ∧ p.grammar.error = none ∧ p.grammar.Productive ∧
    p.lexer.tokens "acy" = List.map .ok [⟨0, "a", 0, 1⟩, ⟨4, "c", 1, 2⟩, ⟨3, "y", 2, 3⟩] ++
      [.ok ⟨p.grammar.eof, "", 3, 3⟩] ∧
    p.parseWithin 20 "acy" = some o ∧ o.result = .error e ∧ e.IsSyntax ∧ e.span = ⟨2, 3⟩ ∧
    p.grammar.Continues [0, 4] 5 ∧ p.grammar.terminalName 5 ∉ e.expected := by
  refine ⟨Blueprint.contexts, Blueprint.declared_contexts, ?_⟩
  obtain ⟨p, hp, hall, hres, hnone, hproductive, hsentence, hname, htokens, hparse⟩ :=
    Blueprint.exists_build_contexts (P := fun p => p.grammar.terminalName 5 = "'d'" ∧
      p.lexer.tokens "acy" = List.map .ok [⟨0, "a", 0, 1⟩, ⟨4, "c", 1, 2⟩, ⟨3, "y", 2, 3⟩] ++
        [.ok ⟨p.grammar.eof, "", 3, 3⟩] ∧
      ((p.parseWithin 20 "acy").bind Outcome.error?) =
        some (.unexpectedToken "'y'" "y" ⟨2, 3⟩ ⟨1, 3⟩ 4 ["'x'"]))
    (by decide +kernel)
  obtain ⟨o, ho, herror⟩ := Option.bind_eq_some_iff.1 hparse
  refine ⟨p, o, _, hp, hall, hres, hnone, hproductive, htokens, ho,
    Outcome.error?_eq_some_iff.1 herror, trivial, rfl, Or.inr ⟨[1], hsentence⟩, ?_⟩
  rw [hname]
  decide

end ShiftReduce
