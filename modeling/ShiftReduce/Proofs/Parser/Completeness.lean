import ShiftReduce.Proofs.Parser.Safety
import ShiftReduce.Proofs.Parser.Termination
import ShiftReduce.Proofs.Parser.Value

/-!
# Parsers find every derivation

A parser does with values what the tables do with trees: while no rule refuses its values, the values
on its stack are those of the trees, and when one does, this is the first refusal in the tree that the
tables will find (`Parser.Tracks`). So where the tables accept the tokens the parser returns the value
of their tree, or the error of the first refusal, and it never recovers from anything
(`Parser.Proper.exists_ends_of_accept`). Where they do not, and the terminal for wrong input is in no
production, it ends with an error (`Parser.Proper.exists_ends_of_error`). If no conflict of the grammar had
to be settled, the tables accept exactly the tokens that have a derivation tree.

`Tables.build_exact` is the statement about conflict-free grammars as a whole.
-/

namespace ShiftReduce

open Tables (Stacked topState turn ConflictFree)
open StateTransition (Reaches)

namespace ParseError

/-- A token came that has no action, or the input ended too early. -/
def IsSyntax : ParseError → Prop
  | unexpectedToken .. => True
  | unexpectedEnd .. => True
  | _ => False

/-- The rule of a production refused its values. -/
def IsRefusal : ParseError → Prop
  | refused .. => True
  | _ => False

end ParseError

/-- The production that a move reduces. -/
def Move.reduced? : Move → Option Nat
  | .reduce _ prod => some prod
  | _ => none

/-- The productions that were reduced, in order. -/
def Outcome.reductions {α : Type} (o : Outcome α) : List Nat := o.moves.filterMap Move.reduced?

/-- The production that the last move reduces. -/
def Outcome.lastReduction? {α : Type} (o : Outcome α) : Option Nat :=
  o.moves.getLast?.bind Move.reduced?

namespace Parser

variable {α : Type} {p : Parser α} {input : String} {c c' : Config α} {s s' : Stage}
  {forest : List Tree} {tokens : List Token} {stop : Token}

/-- The first token of those that the lexer gives is the next one. -/
theorem Proper.nextToken_of_tokensFrom (hp : p.Proper) (input : String) (cursor : Cursor)
    {token : Token} {rest : List (Except LexError Token)}
    (h : p.lexer.tokensFrom cursor.pos cursor.rest = .ok token :: rest) :
    ∃ ahead, p.nextToken input cursor = .ok (token, ahead) ∧
      p.unread token ahead = .ok token :: rest := by
  suffices hnext : ∃ ahead, p.nextToken input cursor = .ok (token, ahead) by
    obtain ⟨ahead, hnext⟩ := hnext
    exact ⟨ahead, hnext, (hp.unread_of_nextToken hnext).symm.trans h⟩
  rw [Lexer.tokensFrom_of_scan] at h
  rw [nextToken]
  cases hscan : p.lexer.scan cursor.pos cursor.rest with
  | token t after =>
    rw [hscan] at h
    obtain rfl : t = token := Except.ok.inj (List.cons.inj h).1
    exact ⟨after, rfl⟩
  | stray e after =>
    rw [hscan] at h
    exact absurd (List.cons.inj h).1 (by simp)
  | ending pos =>
    rw [hscan] at h
    obtain rfl : p.lexer.endToken pos = token := Except.ok.inj (List.cons.inj h).1
    exact ⟨⟨pos, []⟩, rfl⟩

theorem exists_first (tokens : List Token) (stop : Token) :
    ∃ token rest, tokens.map .ok ++ [.ok stop] = (.ok token :: rest : List (Except LexError Token)) := by
  cases tokens with
  | nil => exact ⟨stop, [], rfl⟩
  | cons token tokens => exact ⟨token, _, rfl⟩

theorem tokens_inj {tokens tokens' : List Token} {stop stop' : Token}
    (h : (tokens.map .ok ++ [.ok stop] : List (Except LexError Token)) =
      tokens'.map .ok ++ [.ok stop']) : tokens = tokens' ∧ stop = stop' := by
  obtain ⟨hfront, hlast⟩ := List.append_inj' h rfl
  have hinj : Function.Injective (Except.ok : Token → Except LexError Token) :=
    fun _ _ h => Except.ok.inj h
  exact ⟨List.map_injective_iff.2 hinj hfront, Except.ok.inj (List.singleton_inj.1 hlast)⟩

/-- The parser does with values what the tables do with trees. -/
structure Tracks (p : Parser α) (c : Config α) (s : Stage) (forest : List Tree)
    (tokens : List Token) (stop : Token) : Prop where
  values : Stacked p.grammar (fun tree v => p.evaluate tree = .ok v) c.stack forest
  trees : Stacked p.grammar Eq s.stack forest
  unread : p.unread c.token c.ahead = tokens.map .ok ++ [.ok stop]
  left : s.left = tokens.map Token.word
  stop : stop.terminal = p.grammar.eof
  recovered : c.recovered = none
  shifted : c.shifted = true

theorem Tracks.topState_eq (h : p.Tracks c s forest tokens stop) :
    topState c.stack = topState s.stack :=
  Option.some.inj (h.values.walk_topState.symm.trans h.trees.walk_topState)

/-- The token that the parser looks at is the next word, or the end of the input. -/
theorem Tracks.coming_eq (h : p.Tracks c s forest tokens stop) (hp : p.Proper) :
    p.tables.coming s.left = c.token.terminal := by
  have hunread := h.unread
  rw [h.left]
  cases tokens with
  | nil =>
    obtain rfl : c.token = stop := Except.ok.inj (List.cons.inj hunread).1
    exact hp.eof.trans h.stop.symm
  | cons token tokens =>
    obtain rfl : c.token = token := Except.ok.inj (List.cons.inj hunread).1
    rfl

/-- The parser shifts when the tables do. -/
theorem Tracks.shift (h : p.Tracks c s forest tokens stop) (hp : p.Proper) (input : String)
    {next : Nat} {word : Word} {left : List Word}
    (haction : p.tables.actionAt (topState s.stack) word.1 = .shift next)
    (hleft : s.left = word :: left) : ∃ c' tokens', tokens = c.token :: tokens' ∧
      p.step input c =
        ([.shift (p.top c.stack) next c.token.terminal c.token.text], .next c') ∧
      p.Tracks c' ⟨(next, .leaf word) :: s.stack, left, s.reduced⟩ (.leaf word :: forest) tokens'
        stop := by
  have hunread := h.unread
  have htokens := h.left.symm.trans hleft
  cases tokens with
  | nil => exact absurd htokens (by simp)
  | cons token tokens =>
    obtain ⟨rfl, rfl⟩ := List.cons.inj htokens
    obtain rfl : c.token = token := Except.ok.inj (List.cons.inj hunread).1
    have hwalk := h.trees.walk_topState
    have hne := (hp.made.walk_of_shift hp.wellFormed hwalk haction).2
    obtain ⟨prod, hmem⟩ := hp.made.exists_mem_rhs_of_shift hp.wellFormed hwalk haction
    obtain ⟨value, hvalue⟩ := Option.isSome_iff_exists.1 (hp.values prod _ hmem)
    have hv : p.valueOf c.token.terminal c.token.text = some (value c.token.text) := by
      rw [valueOf]
      exact congrArg (Option.map _) hvalue
    rw [unread_of_ne hne] at hunread
    obtain ⟨token', rest, hrest⟩ := exists_first tokens stop
    have htokens' : p.lexer.tokensFrom c.ahead.pos c.ahead.rest = .ok token' :: rest :=
      (List.cons.inj hunread).2.trans hrest
    obtain ⟨ahead, hnext, hunread'⟩ := hp.nextToken_of_tokensFrom input c.ahead htokens'
    refine ⟨⟨(next, value c.token.text) :: c.stack, token', ahead, c.recovered, true⟩, tokens, rfl, ?_, ?_⟩
    · have haction' : p.tables.actionAt (p.top c.stack) c.token.terminal = .shift next := by
        rw [hp.top_eq, h.topState_eq]
        exact haction
      simp only [Parser.step, haction', Parser.shift, hv, hnext]
    · have hleaf : p.evaluate (.leaf c.token.word) = .ok (value c.token.text) := by
        rw [evaluate, Token.word, hv]
      exact
        { values := h.values.shift hp.wellFormed hp.made (h.topState_eq ▸ haction) hleaf
          trees := h.trees.shift hp.wellFormed hp.made haction rfl
          unread := hunread'.trans hrest.symm
          left := rfl
          stop := h.stop
          recovered := h.recovered
          shifted := rfl }

/-- Without an error to hand over, the value of a production is made by its rule. -/
theorem reduceValue_none {prod : Nat} {r : ProdRule α} (hr : p.rules[prod]? = some r)
    (input : String) (token : Token) (values : List α) :
    p.reduceValue input prod none token values =
      (r.rule.run values).mapError fun message => .refused message (p.grammar.prodText prod)
        ⟨token.start, token.stop⟩ (Text.Location.ofOffset input token.start) := by
  rw [reduceValue, hr]

/-- The parser reduces when the tables do, or it ends because the rule refuses the values. -/
theorem Tracks.reduce (h : p.Tracks c s forest tokens stop) (hp : p.Proper) (input : String)
    {prod next : Nat}
    (haction : p.tables.actionAt (topState s.stack) (p.tables.coming s.left) = .reduce prod)
    (hgoto : p.tables.gotoAt (topState (s.stack.drop (p.grammar.rhs prod).length))
      (p.grammar.lhs prod) = some next) :
    ∃ state, (∃ c', p.step input c = ([.reduce state prod], .next c') ∧
        p.Tracks c' ⟨(next, .node prod (forest.take (p.grammar.rhs prod).length).reverse) ::
          s.stack.drop (p.grammar.rhs prod).length, s.left, s.reduced ++ [prod]⟩
          (.node prod (forest.take (p.grammar.rhs prod).length).reverse ::
            forest.drop (p.grammar.rhs prod).length) tokens stop) ∨
      ∃ message span location, p.step input c = ([.reduce state prod],
          .done (.error (.refused message (p.grammar.prodText prod) span location))) ∧
        p.evaluate (.node prod (forest.take (p.grammar.rhs prod).length).reverse) =
          .error (.refused prod message) := by
  have haction' : p.tables.actionAt (topState c.stack) c.token.terminal = .reduce prod := by
    rw [h.topState_eq, ← h.coming_eq hp]
    exact haction
  have hprod := (h.values.roots_of_reduce hp.wellFormed hp.made haction').1
  obtain ⟨r, hr⟩ : ∃ r, p.rules[prod]? = some r :=
    ⟨_, Array.getElem?_eq_getElem (hp.rules ▸ hprod)⟩
  obtain ⟨values, hvalues⟩ : ∃ values,
      ((c.stack.take (p.grammar.rhs prod).length).map Prod.snd).reverse = values := ⟨_, rfl⟩
  have hchildren : p.evaluateAll (forest.take (p.grammar.rhs prod).length).reverse = .ok values := by
    rw [← hvalues]
    exact evaluateAll_of_forall₂ (List.rel_reverse (h.values.forall₂_take _))
  have hnode : p.evaluate (.node prod (forest.take (p.grammar.rhs prod).length).reverse) =
      (r.rule.run values).mapError (.refused prod) := by
    rw [evaluate, hchildren]
    simp only [Except.bind, applyRule, hr]
  have hgoto' : p.tables.gotoAt (topState (c.stack.drop (p.grammar.rhs prod).length))
      (p.grammar.lhs prod) = some next := by
    rw [Option.some.inj ((h.values.drop _).walk_topState.symm.trans (h.trees.drop _).walk_topState)]
    exact hgoto
  have hstep : p.step input c = ([.reduce (topState (c.stack.drop (p.grammar.rhs prod).length)) prod],
      p.reduce input c prod) := by
    simp only [Parser.step, hp.top_eq, haction', hp.arity_eq hprod]
  have hreduce := reduceValue_none hr input c.token values
  refine ⟨topState (c.stack.drop (p.grammar.rhs prod).length), ?_⟩
  rw [hstep]
  cases hrun : r.rule.run values with
  | ok v =>
    rw [hrun] at hnode hreduce
    refine Or.inl ⟨⟨(next, v) :: c.stack.drop (p.grammar.rhs prod).length, c.token, c.ahead, none,
      c.shifted⟩, ?_, ?_⟩
    · simp only [Parser.reduce, hp.arity_eq hprod, hp.target_eq hprod, hp.top_eq, h.recovered,
        ite_self, hvalues, hreduce, Except.mapError, hgoto']
    · exact
        { values := h.values.reduce hp.wellFormed hp.made haction' hgoto' hnode
          trees := h.trees.reduce hp.wellFormed hp.made haction hgoto rfl
          unread := h.unread
          left := h.left
          stop := h.stop
          recovered := rfl
          shifted := h.shifted }
  | error message =>
    rw [hrun] at hnode hreduce
    refine Or.inr ⟨message, ⟨c.token.start, c.token.stop⟩,
      Text.Location.ofOffset input c.token.start, ?_, hnode⟩
    simp only [Parser.reduce, hp.arity_eq hprod, h.recovered, ite_self, hvalues, hreduce,
      Except.mapError]

/-- What the outcome of a parse has to be if the words are those of the tree: its value and its
reductions, or the error of the first refusal and the reductions up to it. The reductions before the
parse was looked at come on top. -/
def Conforms (p : Parser α) (tree : Tree) (before : List Nat) (o : Outcome α) : Prop :=
  match p.evaluate tree with
  | .ok v => o.result = .ok v ∧ before ++ o.reductions = tree.reductions
  | .error (.refused prod message) =>
    (∃ span location, o.result =
      .error (.refused message (p.grammar.prodText prod) span location)) ∧
    ∃ done rest, before ++ o.reductions = done ++ [prod] ∧ tree.reductions = done ++ prod :: rest
  | .error .missing => False

/-- The moves of a step that neither recovers nor discards. -/
theorem smooth_cons {move : Move} {moves : List Move} (hmove : ∀ state next,
    move ≠ .shiftError state next) (hmoves : Smooth moves) : Smooth ([move] ++ moves) := by
  intro state next hmem
  rcases List.mem_cons.1 hmem with heq | hmem
  · exact hmove state next heq.symm
  · exact hmoves state next hmem

/-- When the tables accept, the parser returns the value of the tree. -/
theorem Tracks.accept (h : p.Tracks c s forest tokens stop) (hp : p.Proper) (input : String)
    (haction : p.tables.actionOf s = .accept) : ∃ state tree v, forest = [tree] ∧
      p.evaluate tree = .ok v ∧ p.step input c = ([.accept state], .done (.ok v)) := by
  rw [Tables.actionOf, ← h.topState_eq, h.coming_eq hp] at haction
  obtain ⟨-, tree, q, v, hforest, hstack, -, -, hv⟩ :=
    h.values.accept hp.wellFormed hp.made haction
  refine ⟨topState c.stack, tree, v, hforest, hv, ?_⟩
  have hfinish : p.finish input c = .ok v := by rw [finish, hstack]
  simp only [Parser.step, hp.top_eq, haction, hfinish]

/-- A node that is refused behind trees with values is what is refused first in all of them. -/
theorem Tracks.refused_of_node (h : p.Tracks c s forest tokens stop) {n next : Nat} {node : Tree}
    {e : Refusal} (hnode : p.evaluate node = .error e) (left : List Word) (reduced : List Nat) :
    p.evaluateAll (Stage.trees ⟨(next, node) :: s.stack.drop n, left, reduced⟩) = .error e := by
  have hvalues := evaluateAll_of_forall₂ (List.rel_reverse (h.values.drop n).forall₂)
  rw [Stage.trees, List.map_cons, List.reverse_cons, List.map_drop, h.trees.map_snd,
    evaluateAll_append, hvalues, evaluateAll_singleton, hnode]
  rfl

theorem Conforms.of_eq {tree : Tree} {before before' : List Nat} {o o' : Outcome α}
    (h : p.Conforms tree before o) (hresult : o'.result = o.result)
    (hreductions : before' ++ o'.reductions = before ++ o.reductions) :
    p.Conforms tree before' o' := by
  rw [Conforms, hresult, hreductions]
  exact h

/-- While the tables find a tree, the parser finds its value or the first refusal. -/
theorem Tracks.run (hp : p.Proper) (input : String) {q : Nat} {tree : Tree}
    (haccept : p.tables.actionOf ⟨[(q, tree)], [], tree.reductions⟩ = .accept)
    (hreaches : Reaches (turn p.grammar p.tables) s ⟨[(q, tree)], [], tree.reductions⟩)
    (h : p.Tracks c s forest tokens stop) :
    ∃ fuel o, p.run input fuel c = some o ∧ Smooth o.moves ∧ p.Conforms tree s.reduced o := by
  induction hreaches using Relation.ReflTransGen.head_induction_on generalizing c forest tokens with
  | refl =>
    obtain ⟨state, tree', v, rfl, hv, hstep⟩ := h.accept hp input haccept
    obtain rfl : tree = tree' := List.singleton_inj.1 h.trees.map_snd
    refine ⟨1, _, run_of_done hstep 0, ?_, ?_⟩
    · intro state' next hmem
      exact absurd (List.mem_singleton.1 hmem) (by simp)
    · rw [Conforms, hv]
      exact ⟨rfl, List.append_nil _⟩
  | @head s s' hturn hreaches ih =>
    rcases Tables.turn_cases h.trees hturn with ⟨next, word, left, haction, hleft, rfl⟩ |
      ⟨prod, next, haction, hgoto, rfl⟩
    · obtain ⟨c', tokens', -, hstep, h'⟩ := h.shift hp input haction hleft
      obtain ⟨fuel, o, ho, hsmooth, hconforms⟩ := ih h'
      refine ⟨fuel + 1, _, by rw [run_of_next hstep, ho, Option.map_some], ?_, ?_⟩
      · exact smooth_cons (by simp) hsmooth
      · exact hconforms.of_eq rfl rfl
    · obtain ⟨state, ⟨c', hstep, h'⟩ | ⟨message, span, location, hstep, hrefused⟩⟩ :=
        h.reduce hp input haction hgoto
      · obtain ⟨fuel, o, ho, hsmooth, hconforms⟩ := ih h'
        refine ⟨fuel + 1, _, by rw [run_of_next hstep, ho, Option.map_some], ?_, ?_⟩
        · exact smooth_cons (by simp) hsmooth
        · exact hconforms.of_eq rfl (List.append_cons _ _ _)
      · refine ⟨1, _, run_of_done hstep 0, ?_, ?_⟩
        · exact smooth_cons (by simp) fun _ _ hmem => absurd hmem List.not_mem_nil
        · -- the refusal stays the first one in the whole tree
          have hwhole := refused_of_reaches (h.refused_of_node hrefused _ _) hreaches
          obtain ⟨rest, hrest⟩ := Tables.reduced_prefix_of_reaches hreaches
          rw [Conforms, evaluate_of_singleton hwhole]
          exact ⟨⟨span, location, rfl⟩, s.reduced, rest, rfl,
            hrest.symm.trans (List.append_assoc _ _ _)⟩

/-- The parser starts where the tables do. -/
theorem Proper.exists_tracks (hp : p.Proper)
    (htokens : p.lexer.tokens input = tokens.map .ok ++ [.ok stop])
    (hstop : stop.terminal = p.grammar.eof) :
    ∃ token ahead, p.nextToken input ⟨0, input.toList⟩ = .ok (token, ahead) ∧
      p.Tracks ⟨[], token, ahead, none, true⟩ ⟨[], tokens.map Token.word, []⟩ [] tokens stop := by
  obtain ⟨token, rest, hrest⟩ := exists_first tokens stop
  obtain ⟨ahead, hnext, hunread⟩ :=
    hp.nextToken_of_tokensFrom input ⟨0, input.toList⟩ (htokens.trans hrest)
  exact ⟨token, ahead, hnext,
    { values := .nil
      trees := .nil
      unread := hunread.trans hrest.symm
      left := rfl
      stop := hstop
      recovered := rfl
      shifted := rfl }⟩

/-- If the tables accept the tokens with a tree, the parse ends with its value or its first refusal, and
does not recover from anything. -/
theorem Proper.exists_ends_of_accept (hp : p.Proper)
    (htokens : p.lexer.tokens input = tokens.map .ok ++ [.ok stop])
    (hstop : stop.terminal = p.grammar.eof) {q : Nat} {tree : Tree}
    (hreaches : Reaches (turn p.grammar p.tables) ⟨[], tokens.map Token.word, []⟩
      ⟨[(q, tree)], [], tree.reductions⟩)
    (haccept : p.tables.actionOf ⟨[(q, tree)], [], tree.reductions⟩ = .accept) :
    ∃ o, p.Ends input o ∧ Smooth o.moves ∧ p.Conforms tree [] o := by
  obtain ⟨token, ahead, hnext, htracks⟩ := hp.exists_tracks htokens hstop
  obtain ⟨fuel, o, ho, hsmooth, hconforms⟩ := htracks.run hp input haccept hreaches
  exact ⟨o, ends_of_run hnext ho, hsmooth, hconforms⟩

/-- If the tokens are the words of a derivation tree of the start symbol, the parse ends with its value
or its first refusal, and does not recover from anything. -/
theorem Proper.exists_ends_of_parses (hp : p.Proper) (hfree : ConflictFree p.grammar p.tables)
    (htokens : p.lexer.tokens input = tokens.map .ok ++ [.ok stop])
    (hstop : stop.terminal = p.grammar.eof) {tree : Tree}
    (hparses : tree.Parses p.grammar (tokens.map Token.word)) :
    ∃ o, p.Ends input o ∧ Smooth o.moves ∧ p.Conforms tree [] o := by
  obtain ⟨q, hreaches, haccept⟩ := hfree.reaches_tree hparses
  exact hp.exists_ends_of_accept htokens hstop hreaches haccept

/-! ### Errors -/

theorem isSyntax_syntaxError (p : Parser α) (input : String) (state : Nat) (token : Token) :
    (p.syntaxError input state token).IsSyntax := by
  rw [syntaxError]
  split
  · trivial
  · trivial

/-- Without stray characters in the input, a parse fails with a syntax error or a refusal. -/
theorem Fails.isSyntax_or_isRefusal {e : ParseError} (h : p.Fails input c e) (hp : p.Proper)
    (hreached : p.Reached input c) (hclean : ∀ le, .error le ∉ p.lexer.tokens input) :
    e.IsSyntax ∨ e.IsRefusal := by
  cases h with
  | @stray le hmem =>
    obtain ⟨tokens, forest, hsound⟩ := hreached.exists_sound hp
    refine absurd ?_ (hclean le)
    rw [hsound.split]
    exact List.mem_append_right _ hmem
  | unexpected _ => exact Or.inl (isSyntax_syntaxError _ _ _ _)
  | refused _ _ _ _ => exact Or.inr trivial

/-- There is nowhere to recover if no production has the terminal for wrong input. -/
theorem Proper.recoveryPoint_eq_none (hp : p.Proper) {e : Nat}
    (hunused : ∀ prod, .terminal e ∉ p.grammar.rhs prod) {E : Tree → α → Prop}
    {stack : List (Nat × α)} (hstack : Stacked p.grammar E stack forest) :
    p.recoveryPoint e stack = none := by
  have hnoshift : ∀ {γ : List Symbol} {i j : Nat},
      Collection.walk (Tables.statesOf p.grammar) 0 γ = some i →
        p.tables.actionAt i e ≠ .shift j := by
    intro γ i j hwalk haction
    obtain ⟨prod, hmem⟩ := hp.made.exists_mem_rhs_of_shift hp.wellFormed hwalk haction
    exact hunused prod hmem
  induction hstack with
  | nil =>
    rw [recoveryPoint]
    split
    · next haction =>
      rw [hp.made.start] at haction
      exact absurd haction (hnoshift (γ := []) rfl)
    · rfl
  | push _ hwalk _ _ ih =>
    rw [recoveryPoint]
    split
    · next haction => exact absurd haction (hnoshift hwalk)
    · exact ih

/-- When the tables refuse, the parse ends with a syntax error if no production has the terminal for
wrong input. -/
theorem Tracks.refuse (h : p.Tracks c s forest tokens stop) (hp : p.Proper) (input : String)
    (hunused : ∀ e, p.grammar.error = some e → ∀ prod, .terminal e ∉ p.grammar.rhs prod)
    (haction : p.tables.actionOf s = .error) :
    p.step input c = ([], .done (.error (p.syntaxError input (p.top c.stack) c.token))) := by
  rw [Tables.actionOf, ← h.topState_eq, h.coming_eq hp, ← hp.top_eq] at haction
  simp only [Parser.step, haction, Parser.stumble, h.shifted, if_true, Parser.recover]
  split
  · rfl
  · next e he => rw [hp.recoveryPoint_eq_none (hunused e he) h.values]

/-- If the tables come to refuse, the parse ends with a syntax error, unless a rule refuses its values
before. -/
theorem Tracks.run_error (hp : p.Proper) (input : String)
    (hunused : ∀ e, p.grammar.error = some e → ∀ prod, .terminal e ∉ p.grammar.rhs prod)
    (haction : p.tables.actionOf s' = .error)
    (hreaches : Reaches (turn p.grammar p.tables) s s') (h : p.Tracks c s forest tokens stop) :
    ∃ fuel o e, p.run input fuel c = some o ∧ o.result = .error e ∧ (e.IsSyntax ∨ e.IsRefusal) := by
  induction hreaches using Relation.ReflTransGen.head_induction_on generalizing c forest tokens with
  | refl =>
    exact ⟨1, _, _, run_of_done (h.refuse hp input hunused haction) 0, rfl,
      Or.inl (isSyntax_syntaxError _ _ _ _)⟩
  | @head s s₁ hturn hreaches ih =>
    have hgo : ∀ {c' : Config α} {forest' : List Tree} {tokens' : List Token} {moves : List Move},
        p.step input c = (moves, .next c') → p.Tracks c' s₁ forest' tokens' stop →
          ∃ fuel o e, p.run input fuel c = some o ∧ o.result = .error e ∧
            (e.IsSyntax ∨ e.IsRefusal) := by
      intro c' forest' tokens' moves hstep h'
      obtain ⟨fuel, o, e, ho, hresult, he⟩ := ih h'
      refine ⟨fuel + 1, { o with moves := moves ++ o.moves }, e, ?_, hresult, he⟩
      rw [run_of_next hstep, ho, Option.map_some]
    rcases Tables.turn_cases h.trees hturn with ⟨next, word, left, haction, hleft, rfl⟩ |
      ⟨prod, next, haction, hgoto, rfl⟩
    · obtain ⟨c', tokens', -, hstep, h'⟩ := h.shift hp input haction hleft
      exact hgo hstep h'
    · obtain ⟨state, ⟨c', hstep, h'⟩ | ⟨message, span, location, hstep, -⟩⟩ :=
        h.reduce hp input haction hgoto
      · exact hgo hstep h'
      · exact ⟨1, _, _, run_of_done hstep 0, rfl, Or.inr trivial⟩

/-- If the tables come to refuse the tokens, the parse ends with an error. -/
theorem Proper.exists_ends_of_error (hp : p.Proper)
    (htokens : p.lexer.tokens input = tokens.map .ok ++ [.ok stop])
    (hstop : stop.terminal = p.grammar.eof)
    (hunused : ∀ e, p.grammar.error = some e → ∀ prod, .terminal e ∉ p.grammar.rhs prod)
    (hreaches : Reaches (turn p.grammar p.tables) ⟨[], tokens.map Token.word, []⟩ s)
    (haction : p.tables.actionOf s = .error) :
    ∃ o e, p.Ends input o ∧ o.result = .error e ∧ (e.IsSyntax ∨ e.IsRefusal) := by
  obtain ⟨token, ahead, hnext, htracks⟩ := hp.exists_tracks htokens hstop
  obtain ⟨fuel, o, e, ho, hresult, he⟩ := htracks.run_error hp input hunused haction hreaches
  exact ⟨o, e, ends_of_run hnext ho, hresult, he⟩

/-- If the tokens are not the words of a derivation tree of the start symbol, and there is no terminal
for wrong input, the parse ends with an error. -/
theorem Proper.error_of_not_parses (hp : p.Proper) (hnone : p.grammar.error = none)
    (htokens : p.lexer.tokens input = tokens.map .ok ++
      [.ok ⟨p.grammar.eof, "", input.utf8ByteSize, input.utf8ByteSize⟩])
    (hparses : ¬ ∃ tree : Tree, tree.Parses p.grammar (tokens.map Token.word)) {o : Outcome α}
    (ho : p.Ends input o) : ∃ e, o.result = .error e ∧ (e.IsSyntax ∨ e.IsRefusal) := by
  obtain ⟨enough, ho⟩ := ho
  have hparse := ho enough (Nat.le_refl _)
  cases hresult : o.result with
  | ok v =>
    have hjustified : p.Justified input none v :=
      hp.parseWithin_sound hparse (Or.inl hnone.symm) hresult
    obtain ⟨tokens', tree, htokens', htree, hroot, hwords, -⟩ := hjustified
    obtain ⟨rfl, -⟩ := tokens_inj (htokens'.symm.trans htokens)
    exact absurd ⟨tree, htree, hroot, hwords.eq_map⟩ hparses
  | error e =>
    refine ⟨e, rfl, ?_⟩
    have hclean : ∀ e, .error e ∉ p.lexer.tokens input := by
      intro e hmem
      rw [htokens] at hmem
      simp at hmem
    obtain ⟨token, rest, hrest⟩ := exists_first tokens
      ⟨p.grammar.eof, "", input.utf8ByteSize, input.utf8ByteSize⟩
    obtain ⟨ahead, hnext, -⟩ :=
      hp.nextToken_of_tokensFrom input ⟨0, input.toList⟩ (htokens.trans hrest)
    rw [parseWithin, hnext] at hparse
    obtain ⟨c, hreached, hfails⟩ := (Reached.start hnext).fails_of_run hp hparse hresult
    exact hfails.isSyntax_or_isRefusal hp hreached hclean

end Parser

/-- What conflict-free grammars promise. A word list has at most one derivation tree. The tables by
themselves end on all words: they accept with the tree of the words, after the reductions of the tree
from the bottom up and from left to right, or there is no tree and they stop at an error. And every
parser of the grammar ends on every input. If the tokens of the input are the words of a tree, it does
not recover from anything and conforms to the tree. If they are not, and there is no terminal for
wrong input, it ends with a syntax error or a refusal. -/
theorem Tables.build_exact {g : Grammar} {t : Tables} (hg : g.WellFormed) (hall : g.ListsAll)
    (ht : Tables.build g = .ok t) (hres : t.resolutions = []) :
    (∀ (words : List Word) (tree tree' : Tree), tree.Parses g words → tree'.Parses g words →
      tree = tree') ∧
    (∀ words : List Word, (∀ word ∈ words, word.1 ≠ g.eof) → ∃ s,
      Reaches (turn g t) ⟨[], words, []⟩ s ∧ turn g t s = none ∧
      (∀ tree : Tree, tree.Parses g words → t.actionOf s = .accept ∧ s.trees = [tree] ∧
        s.left = [] ∧ s.reduced = tree.reductions) ∧
      ((¬ ∃ tree : Tree, tree.Parses g words) → t.actionOf s = .error)) ∧
    ∀ (α : Type) (b : Blueprint α) (p : Parser α), b.Declared → b.build = .ok p → p.grammar = g →
      ∀ input, ∃ o, p.Ends input o ∧ ∀ tokens : List Token,
        p.lexer.tokens input = tokens.map .ok ++
          [.ok ⟨g.eof, "", input.utf8ByteSize, input.utf8ByteSize⟩] →
        (∀ tree : Tree, tree.Parses g (tokens.map Token.word) →
          Parser.Smooth o.moves ∧ p.Conforms tree [] o) ∧
        (g.error = none → (¬ ∃ tree : Tree, tree.Parses g (tokens.map Token.word)) →
          ∃ e, o.result = .error e ∧ (e.IsSyntax ∨ e.IsRefusal)) := by
  have hfree : ConflictFree g t :=
    { toMade := made_of_build ht, wellFormed := hg, listsAll := hall, resolutions := hres }
  refine ⟨fun words tree tree' => hfree.tree_unique, ?_, ?_⟩
  · intro words hwords
    obtain ⟨s, hreaches, hend⟩ : ∃ s, Reaches (turn g t) ⟨[], words, []⟩ s ∧ turn g t s = none :=
      hfree.exists_end .nil
    refine ⟨s, hreaches, hend, ?_, ?_⟩
    · intro tree hparses
      obtain ⟨q, hreaches', haccept⟩ := hfree.reaches_tree hparses
      obtain rfl := end_unique hreaches hend hreaches' (turn_eq_none_of_accept haccept)
      exact ⟨haccept, rfl, rfl, rfl⟩
    · intro hparses
      obtain ⟨forest, hstack, -⟩ := hfree.stacked_of_reaches hg .nil hreaches
      refine (hfree.action_of_turn_none hstack hend).resolve_left fun haccept => ?_
      exact hparses (hfree.tree_of_accept hg hwords hreaches haccept)
  · rintro α b p hb hbuild rfl input
    have hp := hb.proper hbuild
    obtain rfl : p.tables = t := Except.ok.inj (hp.tables.symm.trans ht)
    obtain ⟨o, ho⟩ := hp.exists_ends hall hres input
    refine ⟨o, ho, fun tokens htokens => ⟨?_, ?_⟩⟩
    · intro tree hparses
      obtain ⟨o', ho', hconforms⟩ := hp.exists_ends_of_parses hfree htokens rfl hparses
      rw [ho.unique ho']
      exact hconforms
    · intro hnone hparses
      exact hp.error_of_not_parses hnone htokens hparses ho

/-! ### Nested pairs -/

/-- Declarations for a parser of `S = a S b |`, which returns what it has read. -/
def Blueprint.pairs : Blueprint String :=
  let b : Blueprint String := .empty
  let b := (b.terminal "a" id).1
  let b := (b.terminal "b" id).1
  let b := (b.nonterminal "S").1
  let b := (b.production 0 [.terminal (.declared 0), .nonterminal 0, .terminal (.declared 1)]).1
  let b := (b.production 0 []).1
  let b := b.setRule 0 (.apply fun values => .ok (String.join values))
  b.setRule 1 (.apply fun _ => .ok "")

theorem Blueprint.declared_pairs : Blueprint.pairs.Declared := by
  refine .setRule (.setRule (.production (.production (.nonterminal ?_ _) _ _) _ _) _ _) _ _
  exact .terminal (.terminal .empty _ _) _ _

/-- The derivation tree of `ab`. -/
def Tree.pair : Tree := .node 0 [.leaf (0, "a"), .node 1 [], .leaf (1, "b")]

/-- The pair is read, and the inner production is reduced before the outer one. -/
theorem Tables.build_exact_pairs : ∃ (p : Parser String) (o : Outcome String),
    Blueprint.pairs.build = .ok p ∧ p.grammar.WellFormed ∧ p.grammar.ListsAll ∧
    Tables.build p.grammar = .ok p.tables ∧ p.tables.resolutions = [] ∧
    Tree.pair.Parses p.grammar [(0, "a"), (1, "b")] ∧
    p.Ends "ab" o ∧ o.result = .ok "ab" ∧ o.reductions = [1, 0] := by
  obtain ⟨p, hbuild, hall, hres, hprods, hrhs, hrhs', hlhs, hlhs', hstart, htokens, hvalue⟩ :=
    Blueprint.exists_build (b := Blueprint.pairs)
    (P := fun p => p.grammar.ListsAll ∧ p.tables.resolutions = [] ∧ p.grammar.prods.size = 2 ∧
      p.grammar.rhs 0 = [.terminal 0, .nonterminal 0, .terminal 1] ∧ p.grammar.rhs 1 = [] ∧
      p.grammar.lhs 0 = 0 ∧ p.grammar.lhs 1 = 0 ∧ p.grammar.start = 0 ∧
      p.lexer.tokens "ab" = List.map .ok [⟨0, "a", 0, 1⟩, ⟨1, "b", 1, 2⟩] ++
        [.ok ⟨p.grammar.eof, "", 2, 2⟩] ∧
      (p.evaluate Tree.pair).toOption = some "ab")
    (by decide +kernel)
  have hp := Blueprint.declared_pairs.proper hbuild
  have hparses : Tree.pair.Parses p.grammar [(0, "a"), (1, "b")] := by
    refine ⟨.node (by omega) ?_ ?_, ?_, rfl⟩
    · rw [hrhs]
      simp [Tree.root, hlhs']
    · simp only [List.mem_cons, List.not_mem_nil, or_false]
      rintro child (rfl | rfl | rfl)
      · exact .leaf _
      · exact .node (by omega) hrhs'.symm (by simp)
      · exact .leaf _
    · rw [Tree.pair, Tree.root, hlhs, hstart]
  obtain ⟨o, ho, hconforms⟩ := (Tables.build_exact hp.wellFormed hall hp.tables hres).2.2 String
    Blueprint.pairs p Blueprint.declared_pairs hbuild rfl "ab"
  have houtcome := ((hconforms _ htokens).1 Tree.pair hparses).2
  rw [Parser.Conforms, eq_ok_of_toOption hvalue] at houtcome
  exact ⟨p, o, hbuild, hp.wellFormed, hall, hp.tables, hres, hparses, ho, houtcome⟩

end ShiftReduce
