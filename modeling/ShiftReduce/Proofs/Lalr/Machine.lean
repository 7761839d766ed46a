import Mathlib.Computability.StateTransition
import ShiftReduce.Proofs.Lalr.Halting
import ShiftReduce.Proofs.Lalr.Stack

/-!
# Parsing into trees

The tables by themselves, without values, texts of errors and recovery: `Tables.turn` shifts a word or
reduces a production, and puts trees on the stack. It goes on until the input is accepted or a word
comes that has no action.

What is on the stack are always derivation trees for the words that have been read
(`Made.stacked_of_reaches`), and the machine ends if its reductions do (`Made.exists_end_of_halts`). If
no conflict had to be settled, the converse holds as well: the trees of a derivation are put on the stack
one after the other, whatever was there before, as long as an item calls for them and what comes behind
them is what may come (`ConflictFree.reaches_forest`). So every derivation tree of the start symbol is
found (`ConflictFree.reaches_tree`), there is at most one for given words (`ConflictFree.tree_unique`),
and the machine ends on all words (`ConflictFree.exists_end`).
-/

namespace ShiftReduce

open Collection (walk)
open Relation (ReflTransGen)
open StateTransition (Reaches)

/-- The words are those with which a form begins that the symbols derive, as far as the first of them
goes: there is none if the symbols vanish. -/
def Grammar.Opens (g : Grammar) (words : List Word) (xs : List Symbol) : Prop :=
  match words with
  | [] => g.Vanishes xs
  | word :: _ => g.Begins word.1 xs

theorem Grammar.Opens.append {g : Grammar} {words words' : List Word} {xs ys : List Symbol}
    (h : g.Opens words xs) (h' : g.Opens words' ys) : g.Opens (words ++ words') (xs ++ ys) := by
  cases words with
  | nil =>
    cases words' with
    | nil => exact vanishes_append.2 ⟨h, h'⟩
    | cons word words' => exact begins_append.2 (Or.inr ⟨h, h'⟩)
  | cons word words => exact begins_append.2 (Or.inl h)

theorem Grammar.Opens.nonterminal {g : Grammar} {words : List Word} {p : Nat}
    (hp : p < g.prods.size) (h : g.Opens words (g.rhs p)) :
    g.Opens words [.nonterminal (g.lhs p)] := by
  cases words with
  | nil => exact .cons hp h .nil
  | cons word words => exact .inside [] hp h

namespace Tree

variable {g : Grammar} {tree : Tree} {trees : List Tree}

theorem opens_frontierAll (h : ∀ tree ∈ trees, g.augment.Opens tree.frontier [tree.root g]) :
    g.augment.Opens (frontierAll trees) (trees.map (root g)) := by
  induction trees with
  | nil => exact .nil
  | cons tree trees ih =>
    obtain ⟨htree, htrees⟩ := List.forall_mem_cons.1 h
    exact htree.append (ih htrees)

/-- The words of a tree are those that its root begins with. -/
theorem IsDerivation.opens (h : tree.IsDerivation g) :
    g.augment.Opens tree.frontier [tree.root g] := by
  induction h with
  | leaf word => exact .here []
  | @node prod children hprod hroots _ ih =>
    have hopens := opens_frontierAll ih
    rw [hroots, ← Grammar.rhs_augment hprod] at hopens
    rw [frontier, root, ← Grammar.lhs_augment hprod]
    refine hopens.nonterminal ?_
    rw [Grammar.size_prods_augment]
    exact Nat.lt_succ_of_lt hprod

end Tree

/-- The tables at work on some words. -/
structure Stage where
  /-- The states with their trees, the top of the stack first. -/
  stack : List (Nat × Tree)
  /-- The words that have not been read yet. -/
  left : List Word
  /-- The productions that have been reduced, in order. -/
  reduced : List Nat

/-- The trees on the stack, from left to right. -/
def Stage.trees (s : Stage) : List Tree := (s.stack.map Prod.snd).reverse

namespace Tables

variable {g : Grammar} {t : Tables} {stack : List (Nat × Tree)} {forest : List Tree}
  {left words : List Word} {reduced : List Nat} {c : Core} {ρ : List Symbol} {tree : Tree} {s s' : Stage}

/-- The terminal that comes next. -/
def coming (t : Tables) (left : List Word) : Nat := (left.head?.map Prod.fst).getD t.eof

/-- What is to be done. -/
def actionOf (t : Tables) (s : Stage) : Action :=
  t.actionAt (topState s.stack) (t.coming s.left)

/-- Shifts a word or reduces a production. -/
def turn (g : Grammar) (t : Tables) (s : Stage) : Option Stage :=
  match t.actionOf s with
  | .shift next =>
    match s.left with
    | word :: left => some ⟨(next, .leaf word) :: s.stack, left, s.reduced⟩
    | [] => none
  | .reduce p =>
    let children := ((s.stack.take (g.rhs p).length).map Prod.snd).reverse
    let rest := s.stack.drop (g.rhs p).length
    (t.gotoAt (topState rest) (g.lhs p)).map fun next =>
      ⟨(next, .node p children) :: rest, s.left, s.reduced ++ [p]⟩
  | .accept => none
  | .error => none

theorem Stacked.map_snd (h : Stacked g Eq stack forest) : stack.map Prod.snd = forest := by
  induction h with
  | nil => rfl
  | push _ _ _ hv ih => rw [List.map_cons, ih, ← hv]

/-- What one turn can do. -/
theorem turn_cases (hstack : Stacked g Eq s.stack forest) (h : turn g t s = some s') :
    (∃ next word left, t.actionAt (topState s.stack) word.1 = .shift next ∧ s.left = word :: left ∧
      s' = ⟨(next, .leaf word) :: s.stack, left, s.reduced⟩) ∨
    ∃ p next, t.actionAt (topState s.stack) (t.coming s.left) = .reduce p ∧
      t.gotoAt (topState (s.stack.drop (g.rhs p).length)) (g.lhs p) = some next ∧
      s' = ⟨(next, .node p (forest.take (g.rhs p).length).reverse) ::
        s.stack.drop (g.rhs p).length, s.left, s.reduced ++ [p]⟩ := by
  rw [turn] at h
  split at h
  · next next haction =>
    split at h
    · next word left hleft =>
      refine Or.inl ⟨next, word, left, ?_, hleft, (Option.some.inj h).symm⟩
      rw [actionOf, hleft] at haction
      exact haction
    · exact absurd h (by simp)
  · next p haction =>
    obtain ⟨next, hnext, rfl⟩ := Option.map_eq_some_iff.1 h
    refine Or.inr ⟨p, next, haction, hnext, ?_⟩
    rw [List.map_take, hstack.map_snd]
  · exact absurd h (by simp)
  · exact absurd h (by simp)

/-- What one turn does to the trees. -/
theorem trees_of_turn (h : turn g t s = some s') :
    (∃ word, s'.trees = s.trees ++ [.leaf word] ∧ s'.reduced = s.reduced) ∨
    ∃ before children p, s.trees = before ++ children ∧ s'.trees = before ++ [.node p children] ∧
      s'.reduced = s.reduced ++ [p] := by
  rw [turn] at h
  split at h
  · split at h
    · next word left hleft =>
      obtain rfl := Option.some.inj h
      refine Or.inl ⟨word, ?_, rfl⟩
      rw [Stage.trees, List.map_cons, List.reverse_cons, Stage.trees]
    · exact absurd h (by simp)
  · next p haction =>
    obtain ⟨next, -, rfl⟩ := Option.map_eq_some_iff.1 h
    refine Or.inr ⟨((s.stack.drop (g.rhs p).length).map Prod.snd).reverse,
      ((s.stack.take (g.rhs p).length).map Prod.snd).reverse, p, ?_, ?_, rfl⟩
    · rw [← List.reverse_append, ← List.map_append, List.take_append_drop, Stage.trees]
    · rw [Stage.trees, List.map_cons, List.reverse_cons]
  · exact absurd h (by simp)
  · exact absurd h (by simp)

/-- What has been reduced stays so. -/
theorem reduced_prefix_of_reaches (h : Reaches (turn g t) s s') : s.reduced <+: s'.reduced := by
  induction h with
  | refl => exact List.prefix_refl _
  | @tail s₁ s₂ _ hturn ih =>
    refine ih.trans ?_
    rcases trees_of_turn hturn with ⟨word, -, hreduced⟩ | ⟨before, children, p, -, -, hreduced⟩
    · rw [hreduced]
    · rw [hreduced]
      exact List.prefix_append _ _

theorem turn_shift {next : Nat} {word : Word}
    (haction : t.actionAt (topState stack) word.1 = .shift next) :
    turn g t ⟨stack, word :: left, reduced⟩ =
      some ⟨(next, .leaf word) :: stack, left, reduced⟩ := by
  have hof : t.actionOf ⟨stack, word :: left, reduced⟩ = .shift next := haction
  rw [turn, hof]

theorem turn_reduce (hstack : Stacked g Eq stack forest) {p next : Nat}
    (haction : t.actionAt (topState stack) (t.coming left) = .reduce p)
    (hgoto : t.gotoAt (topState (stack.drop (g.rhs p).length)) (g.lhs p) = some next)
    (reduced : List Nat) : turn g t ⟨stack, left, reduced⟩ =
      some ⟨(next, .node p (forest.take (g.rhs p).length).reverse) ::
        stack.drop (g.rhs p).length, left, reduced ++ [p]⟩ := by
  have hof : t.actionOf ⟨stack, left, reduced⟩ = .reduce p := haction
  simp only [turn, hof, hgoto, Option.map_some, List.map_take, hstack.map_snd]

theorem turn_eq_none_of_accept (h : t.actionOf s = .accept) : turn g t s = none := by
  rw [turn, h]

/-- There is only one end. -/
theorem end_unique {s₁ s₂ : Stage} (h₁ : Reaches (turn g t) s s₁) (hend₁ : turn g t s₁ = none)
    (h₂ : Reaches (turn g t) s s₂) (hend₂ : turn g t s₂ = none) : s₁ = s₂ :=
  Part.mem_unique (StateTransition.mem_eval.2 ⟨h₁, hend₁⟩) (StateTransition.mem_eval.2 ⟨h₂, hend₂⟩)

/-- A reduction rewrites the roots of the trees on a stack. -/
theorem Stacked.reduces {α : Type} {E : Tree → α → Prop} {stack : List (Nat × α)} {a p : Nat}
    (h : Stacked g E stack forest) (hg : g.WellFormed) (ht : Made g t)
    (haction : t.actionAt (topState stack) a = .reduce p) (children : List Tree) :
    Reduces g t a (roots g forest) (roots g (.node p children :: forest.drop (g.rhs p).length)) := by
  refine ⟨_, p, _, h.roots_drop hg ht haction, ?_, h.walk_topState, haction⟩
  rw [roots_cons, Tree.root]

/-! ### The trees on the stack -/

/-- A production is reduced from the trees on top of the stack. -/
theorem Made.exists_turn_node (ht : Made g t) (hg : g.WellFormed) {p : Nat} {children : List Tree}
    {stack' : List (Nat × Tree)} (hlength : children.length = (g.rhs p).length)
    (hstack : Stacked g Eq stack' (children.reverse ++ forest))
    (hdrop : stack'.drop children.length = stack)
    (haction : t.actionAt (topState stack') (t.coming left) = .reduce p) (reduced : List Nat) :
    ∃ q, turn g t ⟨stack', left, reduced⟩ =
        some ⟨(q, .node p children) :: stack, left, reduced ++ [p]⟩ ∧
      Stacked g Eq ((q, .node p children) :: stack) (.node p children :: forest) := by
  obtain ⟨j, hj⟩ := hstack.exists_gotoAt hg ht haction
  have htake : ((children.reverse ++ forest).take (g.rhs p).length).reverse = children := by
    rw [← hlength, ← List.length_reverse, List.take_left, List.reverse_reverse]
  have hforest : (children.reverse ++ forest).drop (g.rhs p).length = forest := by
    rw [← hlength, ← List.length_reverse, List.drop_left]
  have hturn := turn_reduce hstack haction hj reduced
  have hstacked := hstack.reduce hg ht haction hj rfl
  rw [hlength] at hdrop
  rw [htake, hdrop] at hturn hstacked
  rw [hforest] at hstacked
  exact ⟨j, hturn, hstacked⟩

/-- A turn keeps the trees derivation trees, and loses no word. -/
theorem Made.stacked_of_turn (ht : Made g t) (hg : g.WellFormed)
    (hstack : Stacked g Eq s.stack forest) (h : turn g t s = some s') :
    ∃ forest', Stacked g Eq s'.stack forest' ∧
      wordsOf forest' ++ s'.left = wordsOf forest ++ s.left := by
  rcases turn_cases hstack h with ⟨next, word, left, haction, hleft, rfl⟩ |
    ⟨p, next, haction, hgoto, rfl⟩
  · refine ⟨_, hstack.shift hg ht haction rfl, ?_⟩
    rw [wordsOf_cons, List.append_assoc, hleft]
    rfl
  · refine ⟨_, hstack.reduce hg ht haction hgoto rfl, ?_⟩
    rw [wordsOf_cons, Tree.frontier, wordsOf_take_drop]

theorem Made.stacked_of_reaches (ht : Made g t) (hg : g.WellFormed)
    (hstack : Stacked g Eq s.stack forest) (h : Reaches (turn g t) s s') :
    ∃ forest', Stacked g Eq s'.stack forest' ∧
      wordsOf forest' ++ s'.left = wordsOf forest ++ s.left := by
  induction h with
  | refl => exact ⟨forest, hstack, rfl⟩
  | tail _ hturn ih =>
    obtain ⟨forest₁, hstack₁, hwords₁⟩ := ih
    obtain ⟨forest₂, hstack₂, hwords₂⟩ := ht.stacked_of_turn hg hstack₁ hturn
    exact ⟨forest₂, hstack₂, hwords₂.trans hwords₁⟩

/-- What is accepted are the words of the derivation tree on the stack. -/
theorem Made.exists_trees_of_accept (ht : Made g t) (hg : g.WellFormed)
    (hwords : ∀ word ∈ words, word.1 ≠ g.eof) (h : Reaches (turn g t) ⟨[], words, []⟩ s)
    (haction : t.actionOf s = .accept) :
    ∃ tree : Tree, tree.Parses g words ∧ s.trees = [tree] ∧ s.left = [] := by
  obtain ⟨forest, hstack, hall⟩ := ht.stacked_of_reaches hg .nil h
  obtain ⟨heof, tree, q, tree', rfl, hs, hroot, htree, htree'⟩ := hstack.accept hg ht haction
  subst htree'
  have hall : tree.frontier ++ s.left = words := by
    simpa [wordsOf, Tree.frontierAll] using hall
  -- a word that is left would have to be the end of the input
  have hleft : s.left = [] := by
    cases hleft : s.left with
    | nil => rfl
    | cons word left =>
      rw [hleft] at heof hall
      refine absurd heof (hwords word ?_)
      rw [← hall]
      exact List.mem_append_right _ List.mem_cons_self
  rw [hleft, List.append_nil] at hall
  refine ⟨tree, ⟨htree, hroot, hall⟩, ?_, hleft⟩
  rw [Stage.trees, hs]
  rfl

theorem Made.tree_of_accept (ht : Made g t) (hg : g.WellFormed)
    (hwords : ∀ word ∈ words, word.1 ≠ g.eof) (h : Reaches (turn g t) ⟨[], words, []⟩ s)
    (haction : t.actionOf s = .accept) : ∃ tree : Tree, tree.Parses g words := by
  obtain ⟨tree, hparses, -⟩ := ht.exists_trees_of_accept hg hwords h haction
  exact ⟨tree, hparses⟩

/-! ### The end -/

/-- Where there is nothing to shift or reduce, the words are accepted or refused. -/
theorem Made.accept_or_error_of_turn_none (ht : Made g t) (hg : g.WellFormed)
    (hstack : Stacked g Eq s.stack forest) (hturn : turn g t s = none) :
    t.actionOf s = .accept ∨ t.actionOf s = .error := by
  rw [turn] at hturn
  split at hturn
  · next next haction =>
    split at hturn
    · exact absurd hturn (by simp)
    · next hleft =>
      rw [actionOf, hleft] at haction
      exact absurd ht.eof (ht.walk_of_shift hg hstack.walk_topState haction).2
  · next p haction =>
    obtain ⟨j, hj⟩ := hstack.exists_gotoAt hg ht haction
    simp only [hj, Option.map_some] at hturn
    exact absurd hturn (by simp)
  · next haction => exact Or.inl haction
  · next haction => exact Or.inr haction

/-- The machine comes to an end if its reductions do. -/
theorem Made.exists_end_of_halts (ht : Made g t) (hg : g.WellFormed)
    (hhalts : ∀ {a : Nat} {γ : List Symbol} {i : Nat}, walk (statesOf g) 0 γ = some i →
      Halts g t a γ) (hstack : Stacked g Eq stack forest) :
    ∃ s, Reaches (turn g t) ⟨stack, left, reduced⟩ s ∧ turn g t s = none := by
  -- the induction is on the words that are left, and then on the reductions before the next of them
  induction hn : left.length using Nat.strong_induction_on generalizing stack forest left reduced with
  | _ n ihleft =>
    subst hn
    have hacc := hhalts (a := t.coming left) hstack.walk_topState
    generalize hγ : roots g forest = γ at hacc
    induction hacc generalizing stack forest reduced with
    | intro γ _ ih =>
      subst hγ
      cases hturn : turn g t ⟨stack, left, reduced⟩ with
      | none => exact ⟨_, .refl, hturn⟩
      | some s' =>
        rcases turn_cases hstack hturn with ⟨next, word, left', haction, rfl, rfl⟩ |
          ⟨p, next, haction, hgoto, rfl⟩
        · have hstack' := hstack.shift hg ht haction rfl
          obtain ⟨s, hreaches, hend⟩ := ihleft left'.length (Nat.lt_succ_self _) hstack' rfl
          exact ⟨s, .head hturn hreaches, hend⟩
        · have hstack' := hstack.reduce hg ht haction hgoto rfl
          obtain ⟨s, hreaches, hend⟩ := ih _ (hstack.reduces hg ht haction _) hstack' rfl
          exact ⟨s, .head hturn hreaches, hend⟩

namespace ConflictFree

/-! ### Every tree is found -/

/-- What may come behind some trees is what comes when their words have been read. -/
theorem expects_frontier {γ : List Symbol} {xs : List Symbol}
    (hopens : g.augment.Opens words xs)
    (hexpects : Canonical.Expects g.augment γ c ρ (t.coming left)) :
    Canonical.Expects g.augment γ c (xs ++ ρ) (t.coming (words ++ left)) := by
  cases words with
  | nil => exact hexpects.append_left hopens
  | cons word words => exact Or.inl (Grammar.begins_append.2 (Or.inl hopens))

/-- The tree is put on any stack that calls for it. -/
def Found (g : Grammar) (t : Tables) (tree : Tree) : Prop :=
  ∀ stack forest c ρ left reduced, Stacked g Eq stack forest →
    Canonical.Closure g.augment (Canonical.kernelAfter g.augment (roots g forest)) c →
    c.rest g.augment = tree.root g :: ρ →
    Canonical.Expects g.augment (roots g forest) c ρ (t.coming left) →
    ∃ q, Reaches (turn g t) ⟨stack, tree.frontier ++ left, reduced⟩
        ⟨(q, tree) :: stack, left, reduced ++ tree.reductions⟩ ∧
      Stacked g Eq ((q, tree) :: stack) (tree :: forest)

/-- Trees that are found one by one are found one after the other. -/
theorem reaches_forest (h : ConflictFree g t) {trees : List Tree}
    (htrees : ∀ tree ∈ trees, tree.IsDerivation g ∧ tree.root g ≠ .terminal g.eof ∧ Found g t tree)
    (hstack : Stacked g Eq stack forest)
    (hc : Canonical.Closure g.augment (Canonical.kernelAfter g.augment (roots g forest)) c)
    (hrest : c.rest g.augment = trees.map (Tree.root g) ++ ρ)
    (hexpects : Canonical.Expects g.augment (roots g forest) c ρ (t.coming left))
    (reduced : List Nat) : ∃ stack', Reaches (turn g t) ⟨stack, Tree.frontierAll trees ++ left, reduced⟩
        ⟨stack', left, reduced ++ Tree.reductionsAll trees⟩ ∧
      Stacked g Eq stack' (trees.reverse ++ forest) ∧ stack'.drop trees.length = stack := by
  induction trees generalizing stack forest c reduced with
  | nil =>
    rw [Tree.reductionsAll, List.append_nil]
    exact ⟨stack, .refl, hstack, rfl⟩
  | cons tree trees ih =>
    obtain ⟨⟨-, hroot, hfound⟩, htrees⟩ := List.forall_mem_cons.1 htrees
    have hopens := Tree.opens_frontierAll fun tree htree => (htrees tree htree).1.opens
    obtain ⟨q, hreaches, hstack'⟩ := hfound stack forest c (trees.map (Tree.root g) ++ ρ)
      (Tree.frontierAll trees ++ left) reduced hstack hc hrest (expects_frontier hopens hexpects)
    have hnext := Canonical.next?_of_rest hrest
    have hc' := Canonical.closure_goto h.isAugmented hc hnext hroot
    have hexpects' := hexpects.goto h.isAugmented hnext hroot
    rw [← roots_cons] at hc' hexpects'
    obtain ⟨stack', hreaches', hstack'', hdrop⟩ :=
      ih htrees hstack' hc' (Canonical.rest_succ hrest) hexpects' (reduced ++ tree.reductions)
    refine ⟨stack', ?_, ?_, ?_⟩
    · rw [Tree.frontierAll, List.append_assoc, Tree.reductionsAll, ← List.append_assoc reduced]
      exact hreaches.trans hreaches'
    · rw [List.reverse_cons, List.append_assoc]
      exact hstack''
    · rw [List.length_cons, ← List.drop_drop, hdrop, List.drop_one, List.tail_cons]

theorem found_leaf (h : ConflictFree g t) {word : Word} (hword : word.1 ≠ g.eof) :
    Found g t (.leaf word) := by
  intro stack forest c ρ left reduced hstack hc hrest _
  rw [Tree.reductions, List.append_nil]
  obtain ⟨j, hj⟩ := h.exists_shift hstack.walk_topState hc (Canonical.next?_of_rest hrest) hword
  refine ⟨j, .single (turn_shift hj), ?_⟩
  exact hstack.shift h.wellFormed h.toMade hj rfl

/-- A node is found if its children are. -/
theorem found_node (h : ConflictFree g t) {prod : Nat} {children : List Tree}
    (hprod : prod < g.prods.size) (hroots : children.map (Tree.root g) = g.rhs prod)
    (hchildren : ∀ child ∈ children, child.IsDerivation g ∧ child.root g ≠ .terminal g.eof ∧
      Found g t child) : Found g t (.node prod children) := by
  intro stack forest c ρ left reduced hstack hc hrest hexpects
  have hG := h.isAugmented
  have hnext := Canonical.next?_of_rest hrest
  have hlisted : prod ∈ g.augment.prodsOf (g.lhs prod) := by
    rw [Grammar.prodsOf_augment (h.wellFormed.lhs_lt prod hprod)]
    exact h.listsAll prod hprod
  have hsees := hexpects.sees_expand hc hrest hlisted
  have hbody : Core.rest g.augment ⟨prod, 0⟩ = children.map (Tree.root g) ++ [] := by
    rw [Core.rest, List.drop_zero, Grammar.rhs_augment hprod, hroots, List.append_nil]
  obtain ⟨stack', hreaches, hstack', hdrop⟩ :=
    h.reaches_forest hchildren hstack hsees.closure hbody hsees.expects reduced
  have hlength : children.length = (g.rhs prod).length := by rw [← hroots, List.length_map]
  -- the children are on the stack, so the production is reduced
  have hend := hsees.read_rest hG (Grammar.ne_acceptProd hprod)
  have hread : roots g (children.reverse ++ forest) = roots g forest ++ g.rhs prod := by
    rw [← hroots, roots, List.map_append, List.reverse_append, List.map_reverse,
      List.reverse_reverse, roots]
  rw [Core.rest, List.drop_zero, Grammar.rhs_augment hprod, ← hread] at hend
  have haction := h.reduce_of_sees hstack'.walk_topState hprod hend
  obtain ⟨j, hturn, hstacked⟩ := h.toMade.exists_turn_node h.wellFormed hlength hstack' hdrop haction
    (reduced ++ Tree.reductionsAll children)
  rw [Tree.reductions, ← List.append_assoc]
  exact ⟨j, hreaches.tail hturn, hstacked⟩

/-- Every derivation tree is found. -/
theorem found (h : ConflictFree g t) (htree : tree.IsDerivation g)
    (hroot : tree.root g ≠ .terminal g.eof) : Found g t tree := by
  induction htree with
  | leaf word => exact h.found_leaf fun heq => hroot (congrArg Symbol.terminal heq)
  | @node prod children hprod hroots hchildren ih =>
    refine h.found_node hprod hroots fun child hchild => ?_
    have hne : child.root g ≠ .terminal g.eof := by
      intro heq
      refine h.wellFormed.eof_not_mem prod ?_
      rw [← hroots, ← heq]
      exact List.mem_map_of_mem hchild
    exact ⟨hchildren child hchild, hne, ih child hchild hne⟩

/-- Every derivation tree of the start symbol is accepted. -/
theorem reaches_tree (h : ConflictFree g t) (hparses : tree.Parses g words) :
    ∃ q, Reaches (turn g t) ⟨[], words, []⟩ ⟨[(q, tree)], [], tree.reductions⟩ ∧
      t.actionOf ⟨[(q, tree)], [], tree.reductions⟩ = .accept := by
  obtain ⟨htree, hroot, rfl⟩ := hparses
  have hG := h.isAugmented
  have hc : Canonical.Closure g.augment (Canonical.kernelAfter g.augment (roots g []))
      ⟨g.augment.acceptProd, 0⟩ := .kernel rfl
  have hrest : Core.rest g.augment ⟨g.augment.acceptProd, 0⟩ =
      tree.root g :: [.terminal g.eof] := by
    rw [Core.rest, List.drop_zero, Grammar.acceptProd_augment, Grammar.rhs_augment_size, hroot]
  have heof : t.coming [] = g.eof := h.eof
  obtain ⟨q, hreaches, hstack⟩ := h.found htree (by simp [hroot]) [] [] ⟨g.augment.acceptProd, 0⟩
    [.terminal g.eof] [] [] .nil hc hrest (by
      rw [heof]
      exact Or.inl (.here []))
  rw [List.append_nil, List.nil_append] at hreaches
  refine ⟨q, hreaches, ?_⟩
  have hc' := Canonical.closure_goto hG hc (Canonical.next?_of_rest hrest) (by simp [hroot])
  rw [← roots_cons] at hc'
  have haccept := h.accept_of_closure hstack.walk_topState hc'
  rwa [← heof] at haccept

/-- There is at most one derivation tree of the start symbol for given words. -/
theorem tree_unique (h : ConflictFree g t) {tree' : Tree} (htree : tree.Parses g words)
    (htree' : tree'.Parses g words) : tree = tree' := by
  obtain ⟨q, hreaches, haccept⟩ := h.reaches_tree htree
  obtain ⟨q', hreaches', haccept'⟩ := h.reaches_tree htree'
  have heq := end_unique hreaches (turn_eq_none_of_accept haccept) hreaches'
    (turn_eq_none_of_accept haccept')
  simp only [Stage.mk.injEq, List.cons.injEq, Prod.mk.injEq] at heq
  exact heq.1.1.2

/-- The machine comes to an end. -/
theorem exists_end (h : ConflictFree g t) (hstack : Stacked g Eq stack forest) :
    ∃ s, Reaches (turn g t) ⟨stack, left, reduced⟩ s ∧ turn g t s = none :=
  h.toMade.exists_end_of_halts h.wellFormed h.halts hstack

/-- Where there is nothing to shift or reduce, the words are accepted or refused. -/
theorem action_of_turn_none (h : ConflictFree g t) (hstack : Stacked g Eq s.stack forest)
    (hturn : turn g t s = none) : t.actionOf s = .accept ∨ t.actionOf s = .error :=
  h.toMade.accept_or_error_of_turn_none h.wellFormed hstack hturn

end ConflictFree

end Tables

end ShiftReduce
