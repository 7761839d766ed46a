import ShiftReduce.Proofs.Parser.Reading
import ShiftReduce.Proofs.Parser.Step

/-!
# What a parser returns is the value of a derivation tree

While a parser runs, its stack stands for a forest of derivation trees, and the words of the forest
are the tokens read so far, except that pieces of them may have been replaced by the terminal for
wrong input (`Patched`). `Parser.Sound` is this invariant. Every step keeps it, those of a recovery
included: cutting back the stack gives up some words, whose tokens become part of the new piece, and
as long as no token has been shifted since, the piece can still be made longer.

`Blueprint.Declared.parse_sound` is what follows for a whole parse: the value that it returns is that
of a derivation tree of the start symbol, whose words are the tokens of the input up to such pieces.
-/

namespace ShiftReduce

open Tables (Stacked topState)

/-- The words are those of the tokens, except that disjoint pieces of the tokens, some of them maybe
empty, have each been replaced by the terminal for wrong input, if there is one. -/
inductive Patched (error : Option Nat) : List Token → List Word → Prop
  | nil : Patched error [] []
  | token {tokens : List Token} {words : List Word} (h : Patched error tokens words) (t : Token) :
    Patched error (tokens ++ [t]) (words ++ [t.word])
  | piece {tokens : List Token} {words : List Word} {e : Nat} (h : Patched error tokens words)
    (he : error = some e) (piece : List Token) (text : String) :
    Patched error (tokens ++ piece) (words ++ [(e, text)])

namespace Patched

variable {error : Option Nat} {tokens : List Token} {words words' : List Word}

/-- Without a terminal for wrong input the words are those of the tokens. -/
theorem eq_map (h : Patched none tokens words) : words = tokens.map Token.word := by
  induction h with
  | nil => rfl
  | token _ t ih => rw [ih, List.map_append, List.map_singleton]
  | piece _ he => exact absurd he (by simp)

theorem of_none (h : Patched none tokens words) : Patched error tokens words := by
  induction h with
  | nil => exact .nil
  | token _ t ih => exact .token ih t
  | piece _ he => exact absurd he (by simp)

/-- The first words belong to the first tokens. -/
theorem exists_left (h : Patched error tokens (words ++ words')) :
    ∃ before after, tokens = before ++ after ∧ Patched error before words := by
  generalize hws : words ++ words' = ws at h
  induction h generalizing words' with
  | nil =>
    obtain ⟨rfl, rfl⟩ := List.append_eq_nil_iff.1 hws
    exact ⟨[], [], rfl, .nil⟩
  | @token tokens ws h t ih =>
    rcases List.eq_nil_or_concat words' with rfl | ⟨init, last, rfl⟩
    · rw [List.append_nil] at hws
      exact ⟨_, [], (List.append_nil _).symm, hws ▸ .token h t⟩
    · rw [List.concat_eq_append, ← List.append_assoc] at hws
      obtain ⟨before, after, rfl, hbefore⟩ := ih (List.append_inj' hws rfl).1
      exact ⟨before, after ++ [t], List.append_assoc _ _ _, hbefore⟩
  | @piece tokens ws e h he piece text ih =>
    rcases List.eq_nil_or_concat words' with rfl | ⟨init, last, rfl⟩
    · rw [List.append_nil] at hws
      exact ⟨_, [], (List.append_nil _).symm, hws ▸ .piece h he piece text⟩
    · rw [List.concat_eq_append, ← List.append_assoc] at hws
      obtain ⟨before, after, rfl, hbefore⟩ := ih (List.append_inj' hws rfl).1
      exact ⟨before, after ++ piece, List.append_assoc _ _ _, hbefore⟩

end Patched

/-- The last word stands for a piece of the tokens, which can still be made longer. -/
def PatchedLast (error : Option Nat) (tokens : List Token) (words : List Word) : Prop :=
  ∃ before piece init e text, tokens = before ++ piece ∧ words = init ++ [(e, text)] ∧
    Patched error before init ∧ error = some e

theorem PatchedLast.append {error : Option Nat} {tokens : List Token} {words : List Word}
    (h : PatchedLast error tokens words) (more : List Token) :
    PatchedLast error (tokens ++ more) words := by
  obtain ⟨before, piece, init, e, text, rfl, rfl, hbefore, he⟩ := h
  exact ⟨before, piece ++ more, init, e, text, List.append_assoc _ _ _, rfl, hbefore, he⟩

theorem PatchedLast.patched {error : Option Nat} {tokens : List Token} {words : List Word}
    (h : PatchedLast error tokens words) : Patched error tokens words := by
  obtain ⟨before, piece, init, e, text, rfl, rfl, hbefore, he⟩ := h
  exact .piece hbefore he piece text

/-- The value `v` can be made of a tree from the bottom up: that of a leaf by its terminal, and that
of a node by the rule of its production, or by its handler if it has the terminal for wrong input in
it. -/
inductive Parser.Evaluates {α : Type} (p : Parser α) : Tree → α → Prop
  | leaf {word : Word} {v : α} (h : p.valueOf word.1 word.2 = some v) : Evaluates p (.leaf word) v
  | rule {prod : Nat} {children : List Tree} {values : List α} {r : ProdRule α} {v : α}
    (hvalues : List.Forall₂ (Evaluates p) children values) (hr : p.rules[prod]? = some r)
    (hv : r.rule.run values = .ok v) : Evaluates p (.node prod children) v
  | handler {prod : Nat} {children : List Tree} {values : List α} {r : ProdRule α}
    {handler : ParseError → List α → α} (hvalues : List.Forall₂ (Evaluates p) children values)
    (hr : p.rules[prod]? = some r) (hhandler : r.onError = some handler)
    (huses : p.usesError prod = true) (e : ParseError) :
    Evaluates p (.node prod children) (handler e values)

namespace Parser

variable {α : Type} {p : Parser α} {input : String} {error : Option Nat} {c : Config α}

/-- The stack stands for a forest, and the words of the forest for the tokens read so far. -/
structure Sound (p : Parser α) (input : String) (error : Option Nat) (c : Config α)
    (tokens : List Token) (forest : List Tree) : Prop where
  stacked : Stacked p.grammar p.Evaluates c.stack forest
  split : p.lexer.tokens input = tokens.map .ok ++ p.unread c.token c.ahead
  patched : Patched error tokens (wordsOf forest)
  last : c.shifted = false → PatchedLast error tokens (wordsOf forest)

/-! ### Steps -/

theorem Sound.shift (hp : p.Proper) {tokens : List Token} {forest : List Tree}
    (h : p.Sound input error c tokens forest) {next : Nat}
    (haction : p.tables.actionAt (p.top c.stack) c.token.terminal = .shift next) {c' : Config α}
    (hstep : p.shift input c next = .next c') :
    p.Sound input error c' (tokens ++ [c.token]) (.leaf c.token.word :: forest) := by
  rw [hp.top_eq] at haction
  have heof := (hp.made.walk_of_shift hp.wellFormed h.stacked.walk_topState haction).2
  obtain ⟨value, token, ahead, hvalue, hnext, rfl⟩ := shift_eq_next hstep
  refine { stacked := ?_, split := ?_, patched := ?_, last := ?_ }
  · exact h.stacked.shift hp.wellFormed hp.made haction (.leaf hvalue)
  · rw [h.split, unread_of_ne heof, hp.unread_of_nextToken hnext, List.map_append,
      List.append_assoc]
    rfl
  · rw [wordsOf_cons]
    exact .token h.patched c.token
  · exact fun hshifted => absurd hshifted (by simp)

/-- The value of a production is made by its rule, or by its handler if it has the terminal for wrong
input in it. -/
theorem evaluates_of_reduceValue {prod : Nat} {token : Token} {values : List α}
    {children : List Tree} {recovered : Option ParseError} {v : α}
    (hvalues : List.Forall₂ p.Evaluates children values)
    (h : p.reduceValue input prod (if p.usesError prod then recovered else none) token values =
      .ok v) : p.Evaluates (.node prod children) v := by
  rw [reduceValue] at h
  split at h
  · exact absurd h (by simp)
  · next r hr =>
    split at h
    · next e handler he hhandler =>
      obtain rfl := Except.ok.inj h
      refine .handler hvalues hr hhandler ?_ e
      by_contra huses
      rw [if_neg huses] at he
      exact absurd he (by simp)
    · cases hrun : r.rule.run values with
      | error message =>
        rw [hrun] at h
        exact absurd h (by simp [Except.mapError])
      | ok v' =>
        rw [hrun] at h
        obtain rfl : v' = v := Except.ok.inj h
        exact .rule hvalues hr hrun

theorem Sound.reduce (hp : p.Proper) {tokens : List Token} {forest : List Tree}
    (h : p.Sound input error c tokens forest) {prod : Nat}
    (haction : p.tables.actionAt (p.top c.stack) c.token.terminal = .reduce prod) {c' : Config α}
    (hstep : p.reduce input c prod = .next c') :
    p.Sound input error c' tokens
      (.node prod (forest.take (p.grammar.rhs prod).length).reverse ::
        forest.drop (p.grammar.rhs prod).length) := by
  rw [hp.top_eq] at haction
  obtain ⟨hprod, -⟩ := h.stacked.roots_of_reduce hp.wellFormed hp.made haction
  obtain ⟨v, next, hv, hgoto, rfl⟩ := reduce_eq_next hstep
  simp only [hp.arity_eq hprod, hp.target_eq hprod, hp.top_eq] at hv hgoto ⊢
  have hvalues := h.stacked.forall₂_take (p.grammar.rhs prod).length
  have hwords : wordsOf (.node prod (forest.take (p.grammar.rhs prod).length).reverse ::
      forest.drop (p.grammar.rhs prod).length) = wordsOf forest := by
    rw [wordsOf_cons, Tree.frontier, wordsOf_take_drop]
  refine { stacked := ?_, split := h.split, patched := ?_, last := ?_ }
  · refine h.stacked.reduce hp.wellFormed hp.made haction hgoto ?_
    exact evaluates_of_reduceValue (List.rel_reverse hvalues) hv
  · rw [hwords]
    exact h.patched
  · rw [hwords]
    exact h.last

/-- The stack is cut back to a state that shifts the terminal for wrong input. -/
theorem recoveryPoint_spec {terminal : Nat} {stack stack' : List (Nat × α)} {state next : Nat}
    (h : p.recoveryPoint terminal stack = some (stack', state, next)) :
    ∃ n, stack' = stack.drop n ∧ p.tables.actionAt (p.top stack') terminal = .shift next := by
  induction stack with
  | nil =>
    rw [recoveryPoint] at h
    split at h
    · next k hk =>
      obtain ⟨rfl, -, rfl⟩ := h
      exact ⟨0, rfl, hk⟩
    · exact absurd h (by simp)
  | cons entry stack ih =>
    rw [recoveryPoint] at h
    split at h
    · next k hk =>
      obtain ⟨rfl, -, rfl⟩ := h
      exact ⟨0, rfl, hk⟩
    · obtain ⟨n, hn, haction⟩ := ih h
      exact ⟨n + 1, hn, haction⟩

/-- After a recovery the words that were given up, and the tokens discarded, are one piece. -/
theorem Sound.recover (hp : p.Proper) {tokens : List Token} {forest : List Tree}
    (h : p.Sound input p.grammar.error c tokens forest) {e : ParseError} {moves : List Move}
    {c' : Config α} (hstep : p.recover input c e = (moves, .next c')) :
    ∃ tokens' forest', p.Sound input p.grammar.error c' tokens' forest' := by
  obtain ⟨terminal, stack, state, next, value, moves', token, ahead, herror, hpoint, hvalue, hdiscard,
    -, rfl⟩ := recover_eq_next hstep
  obtain ⟨n, rfl, haction⟩ := recoveryPoint_spec hpoint
  rw [hp.top_eq] at haction
  obtain ⟨skipped, hskipped⟩ := hp.unread_of_discard hdiscard
  -- the words that stay belong to the first tokens
  have hwords := wordsOf_take_drop n forest
  obtain ⟨before, after, rfl, hbefore⟩ := (hwords ▸ h.patched).exists_left
  have hlast : PatchedLast p.grammar.error (before ++ after ++ skipped)
      (wordsOf (.leaf (terminal, c.token.text) :: forest.drop n)) := by
    rw [wordsOf_cons]
    exact ⟨before, after ++ skipped, _, terminal, c.token.text, List.append_assoc _ _ _, rfl,
      hbefore, herror⟩
  refine ⟨before ++ after ++ skipped, .leaf (terminal, c.token.text) :: forest.drop n, ?_⟩
  refine { stacked := ?_, split := ?_, patched := hlast.patched, last := fun _ => hlast }
  · exact (h.stacked.drop n).shift hp.wellFormed hp.made haction (.leaf hvalue)
  · rw [h.split, hskipped, ← List.append_assoc, ← List.map_append]

/-- The moves do not recover from anything. -/
def Smooth (moves : List Move) : Prop := ∀ state next, Move.shiftError state next ∉ moves

theorem not_smooth_of_recover {e : ParseError} {moves : List Move} {c' : Config α}
    (h : p.recover input c e = (moves, .next c')) : ¬ Smooth moves := by
  obtain ⟨-, -, state, next, -, -, -, -, -, -, -, -, rfl, -⟩ := recover_eq_next h
  exact fun hsmooth => hsmooth state next List.mem_cons_self

theorem Sound.stumble (hp : p.Proper) {tokens : List Token} {forest : List Tree}
    (h : p.Sound input error c tokens forest) {moves : List Move} {c' : Config α}
    (hstep : p.stumble input c = (moves, .next c'))
    (herror : error = p.grammar.error ∨ Smooth moves) :
    ∃ tokens' forest', p.Sound input error c' tokens' forest' := by
  rcases stumble_eq_next hstep with ⟨-, hrecover⟩ | ⟨token, ahead, hshifted, heof, hnext, -, rfl⟩
  · obtain rfl := herror.resolve_right (not_smooth_of_recover hrecover)
    exact h.recover hp hrecover
  · rw [hp.eof] at heof
    have hlast := (h.last hshifted).append [c.token]
    refine ⟨tokens ++ [c.token], forest, ?_⟩
    refine { stacked := h.stacked, split := ?_, patched := hlast.patched, last := fun _ => hlast }
    rw [h.split, unread_of_ne heof, hp.unread_of_nextToken hnext, List.map_append,
      List.append_assoc]
    rfl

/-- Every step keeps the invariant. -/
theorem Sound.step (hp : p.Proper) {tokens : List Token} {forest : List Tree}
    (h : p.Sound input error c tokens forest) {moves : List Move} {c' : Config α}
    (hstep : p.step input c = (moves, .next c'))
    (herror : error = p.grammar.error ∨ Smooth moves) :
    ∃ tokens' forest', p.Sound input error c' tokens' forest' := by
  rcases step_cases hstep with ⟨next, haction, -, hshift⟩ | ⟨prod, haction, -, hreduce⟩ |
    ⟨-, hstumble⟩
  · exact ⟨_, _, h.shift hp haction hshift⟩
  · exact ⟨_, _, h.reduce hp haction hreduce⟩
  · exact h.stumble hp hstumble herror

/-! ### Runs -/

/-- What it means that the value `v` was rightly returned: the tokens of the input are those of a
derivation tree of the start symbol, up to pieces of wrong input, and `v` is a value of the tree. -/
def Justified (p : Parser α) (input : String) (error : Option Nat) (v : α) : Prop :=
  ∃ (tokens : List Token) (tree : Tree),
    p.lexer.tokens input = tokens.map .ok ++
      [.ok ⟨p.grammar.eof, "", input.utf8ByteSize, input.utf8ByteSize⟩] ∧
    tree.IsDerivation p.grammar ∧ tree.root p.grammar = .nonterminal p.grammar.start ∧
    Patched error tokens tree.frontier ∧ p.Evaluates tree v

theorem Sound.justified (hp : p.Proper) {tokens : List Token} {forest : List Tree}
    (h : p.Sound input error c tokens forest)
    (haction : p.tables.actionAt (p.top c.stack) c.token.terminal = .accept) {v : α}
    (hv : p.finish input c = .ok v) : p.Justified input error v := by
  rw [hp.top_eq] at haction
  obtain ⟨heof, tree, q, v', rfl, hstack, hroot, htree, hvalue⟩ :=
    h.stacked.accept hp.wellFormed hp.made haction
  rw [finish, hstack] at hv
  obtain rfl : v' = v := Except.ok.inj hv
  refine ⟨tokens, tree, ?_, htree, hroot, ?_, hvalue⟩
  · -- the token that the parser looks at is the last one
    have hsplit := h.split
    rw [unread, if_pos heof] at hsplit
    have hcut : Decomposes p.grammar.patterns p.grammar.eof 0 input.toList (p.lexer.tokens input) :=
      hp.lexer.decomposes_tokensFrom 0 input.toList
    obtain ⟨front, hfront⟩ := hcut.exists_ending
    rw [Nat.zero_add, ← utf8ByteSize_ofList, String.ofList_toList] at hfront
    obtain ⟨-, hend⟩ := List.append_inj' (hsplit.symm.trans hfront) rfl
    rw [hsplit, hend]
  · have := h.patched
    rwa [wordsOf_cons, wordsOf, List.reverse_nil, Tree.frontierAll, List.nil_append] at this

/-- A run that returns a value from a sound configuration returns it rightly. -/
theorem Sound.run (hp : p.Proper) {tokens : List Token} {forest : List Tree}
    (h : p.Sound input error c tokens forest) {fuel : Nat} {o : Outcome α}
    (hrun : p.run input fuel c = some o) (herror : error = p.grammar.error ∨ Smooth o.moves)
    {v : α} (hv : o.result = .ok v) : p.Justified input error v := by
  induction fuel generalizing c tokens forest o with
  | zero => exact absurd hrun (by simp [Parser.run])
  | succ fuel ih =>
    rw [Parser.run] at hrun
    split at hrun
    · next moves result hstep =>
      obtain rfl := Option.some.inj hrun
      simp only at hv
      rw [hv] at hstep
      obtain ⟨haction, hfinish⟩ := accept_of_step hstep
      exact h.justified hp haction hfinish
    · next moves c' hstep =>
      obtain ⟨o', ho', rfl⟩ := Option.map_eq_some_iff.1 hrun
      have hsmooth : Smooth (moves ++ o'.moves) → Smooth moves ∧ Smooth o'.moves := fun hall =>
        ⟨fun s n hmem => hall s n (List.mem_append_left _ hmem),
          fun s n hmem => hall s n (List.mem_append_right _ hmem)⟩
      obtain ⟨tokens', forest', h'⟩ := h.step hp hstep (herror.imp_right fun hall => (hsmooth hall).1)
      exact ih h' ho' (herror.imp_right fun hall => (hsmooth hall).2) hv

/-- A parse starts with nothing read. -/
theorem Proper.sound_start (hp : p.Proper) {token : Token} {ahead : Cursor}
    (hnext : p.nextToken input ⟨0, input.toList⟩ = .ok (token, ahead)) :
    p.Sound input error ⟨[], token, ahead, none, true⟩ [] [] where
  stacked := .nil
  split := hp.unread_of_nextToken hnext
  patched := .nil
  last hshifted := absurd hshifted (by simp)

theorem Proper.parseWithin_sound (hp : p.Proper) {fuel : Nat} {o : Outcome α}
    (h : p.parseWithin fuel input = some o) (herror : error = p.grammar.error ∨ Smooth o.moves)
    {v : α} (hv : o.result = .ok v) : p.Justified input error v := by
  rw [parseWithin] at h
  split at h
  · obtain rfl := Option.some.inj h
    exact absurd hv (by simp)
  · next token ahead hnext => exact (hp.sound_start hnext).run hp h herror hv

end Parser

/-- Every value that a parse returns is that of a derivation tree of the start symbol. The words of
the tree are the tokens of the input, up to pieces that are replaced by the terminal for wrong input.
If there is no such terminal, or the parse did not recover from anything, they are exactly the
tokens. -/
theorem Blueprint.Declared.parse_sound {α : Type} {b : Blueprint α} (hb : b.Declared)
    {p : Parser α} (hp : b.build = .ok p) {fuel : Nat} {input : String} {o : Outcome α}
    (h : p.parseWithin fuel input = some o) {v : α} (hv : o.result = .ok v) :
    ∃ (tokens : List Token) (tree : Tree),
      p.lexer.tokens input = tokens.map .ok ++
        [.ok ⟨p.grammar.eof, "", input.utf8ByteSize, input.utf8ByteSize⟩] ∧
      tree.IsDerivation p.grammar ∧ tree.root p.grammar = .nonterminal p.grammar.start ∧
      Patched p.grammar.error tokens tree.frontier ∧
      (p.grammar.error = none ∨ Parser.Smooth o.moves →
        tree.frontier = tokens.map Token.word) ∧
      p.Evaluates tree v := by
  have hproper := hb.proper hp
  by_cases hsmooth : p.grammar.error = none ∨ Parser.Smooth o.moves
  · obtain ⟨tokens, tree, hsplit, htree, hroot, hwords, hvalue⟩ :=
      hproper.parseWithin_sound h (hsmooth.imp_left Eq.symm) hv
    exact ⟨tokens, tree, hsplit, htree, hroot, hwords.of_none, fun _ => hwords.eq_map, hvalue⟩
  · obtain ⟨tokens, tree, hsplit, htree, hroot, hwords, hvalue⟩ :=
      hproper.parseWithin_sound h (Or.inl rfl) hv
    exact ⟨tokens, tree, hsplit, htree, hroot, hwords, fun h => absurd h hsmooth, hvalue⟩

/-! ### A single letter -/

/-- Declarations for a parser of a single letter that puts up with wrong input. -/
def Blueprint.letter : Blueprint String :=
  let b : Blueprint String := .empty
  let b := (b.terminal "a" id).1
  let b := b.errorToken.1
  let b := (b.nonterminal "S").1
  let b := (b.production 0 [.terminal (.declared 0)]).1
  let b := (b.production 0 [.terminal (.declared 1)]).1
  b.setLiteralValue id

theorem Blueprint.declared_letter : Blueprint.letter.Declared := by
  refine .setLiteralValue (.production (.production ?_ _ _) _ _) _
  exact .nonterminal (.errorToken (.terminal .empty _ _)) _

/-- A parser of which a property has been computed. -/
theorem Blueprint.exists_build {α : Type} {b : Blueprint α} {P : Parser α → Prop} [DecidablePred P]
    (h : (b.build.toOption.map fun p => decide (P p)) = some true) : ∃ p, b.build = .ok p ∧ P p :=
  exists_ok h

/-- After the second letter both are given up, and the value is that of the wrong input. -/
theorem Blueprint.Declared.parse_sound_letter : ∃ p o,
    Blueprint.letter.build = .ok p ∧ p.parseWithin 10 "aa" = some o ∧ o.result = .ok "a" ∧
    ∃ (tokens : List Token) (tree : Tree),
      p.lexer.tokens "aa" = tokens.map .ok ++ [.ok ⟨p.grammar.eof, "", 2, 2⟩] ∧
      tree.IsDerivation p.grammar ∧ tree.root p.grammar = .nonterminal p.grammar.start ∧
      Patched p.grammar.error tokens tree.frontier ∧
      (p.grammar.error = none ∨ Parser.Smooth o.moves →
        tree.frontier = tokens.map Token.word) ∧
      p.Evaluates tree "a" := by
  obtain ⟨p, hp, hresult⟩ := Blueprint.exists_build (b := Blueprint.letter)
    (P := fun p => ((p.parseWithin 10 "aa").bind fun o => o.result.toOption) = some "a")
    (by decide +kernel)
  obtain ⟨o, ho, hv⟩ := Option.bind_eq_some_iff.1 hresult
  have hv := eq_ok_of_toOption hv
  exact ⟨p, o, hp, ho, hv, Blueprint.declared_letter.parse_sound hp ho hv⟩

end ShiftReduce
