import Mathlib.Data.List.Forall2
import ShiftReduce.Proofs.Grammar.Tree
import ShiftReduce.Proofs.Lalr.Actions

/-!
# Stacks of trees

What is on the stack of a parser stands for a forest: each entry is a state with something that was
made of a tree. `Tables.Stacked` says so, where `E tree v` tells what may be made of a tree. The
states are those that the roots of the trees lead to. Each action has its lemma: what it does to the
stack it does to the forest.
-/

namespace ShiftReduce

open Collection (walk)

/-- The roots of a forest, whose last tree comes first. -/
def roots (g : Grammar) (forest : List Tree) : List Symbol := (forest.map (Tree.root g)).reverse

/-- The words of a forest, whose last tree comes first. -/
def wordsOf (forest : List Tree) : List Word := Tree.frontierAll forest.reverse

theorem roots_cons (g : Grammar) (tree : Tree) (forest : List Tree) :
    roots g (tree :: forest) = roots g forest ++ [tree.root g] := by
  rw [roots, List.map_cons, List.reverse_cons, roots]

theorem wordsOf_cons (tree : Tree) (forest : List Tree) :
    wordsOf (tree :: forest) = wordsOf forest ++ tree.frontier := by
  rw [wordsOf, List.reverse_cons, Tree.frontierAll_append, Tree.frontierAll_singleton, wordsOf]

theorem wordsOf_take_drop (n : Nat) (forest : List Tree) :
    wordsOf (forest.drop n) ++ Tree.frontierAll (forest.take n).reverse = wordsOf forest := by
  rw [wordsOf, ← Tree.frontierAll_append, ← List.reverse_append, List.take_append_drop, wordsOf]

namespace Tables

variable {α : Type} {g : Grammar} {t : Tables} {E : Tree → α → Prop} {stack : List (Nat × α)}
  {forest : List Tree} {a j p : Nat}

/-- The state on top of a stack. -/
def topState (stack : List (Nat × α)) : Nat := (stack.head?.map Prod.fst).getD 0

/-- The stack stands for the forest. -/
inductive Stacked (g : Grammar) (E : Tree → α → Prop) : List (Nat × α) → List Tree → Prop
  | nil : Stacked g E [] []
  | push {stack : List (Nat × α)} {forest : List Tree} {q : Nat} {v : α} {tree : Tree}
    (h : Stacked g E stack forest) (hwalk : walk (statesOf g) 0 (roots g (tree :: forest)) = some q)
    (htree : tree.IsDerivation g) (hv : E tree v) : Stacked g E ((q, v) :: stack) (tree :: forest)

/-- The state on top is the one that the roots lead to. -/
theorem Stacked.walk_topState (h : Stacked g E stack forest) :
    walk (statesOf g) 0 (roots g forest) = some (topState stack) := by
  cases h with
  | nil => rfl
  | push _ hwalk _ _ => exact hwalk

theorem Stacked.isDerivation (h : Stacked g E stack forest) :
    ∀ tree ∈ forest, tree.IsDerivation g := by
  induction h with
  | nil => exact fun tree htree => absurd htree List.not_mem_nil
  | push _ _ htree _ ih => exact List.forall_mem_cons.2 ⟨htree, ih⟩

theorem Stacked.drop (h : Stacked g E stack forest) (n : Nat) :
    Stacked g E (stack.drop n) (forest.drop n) := by
  induction h generalizing n with
  | nil =>
    rw [List.drop_nil, List.drop_nil]
    exact .nil
  | push h hwalk htree hv ih =>
    cases n with
    | zero => exact .push h hwalk htree hv
    | succ n => exact ih n

theorem Stacked.forall₂ (h : Stacked g E stack forest) :
    List.Forall₂ E forest (stack.map Prod.snd) := by
  induction h with
  | nil => exact .nil
  | push _ _ _ hv ih => exact .cons hv ih

theorem Stacked.forall₂_take (h : Stacked g E stack forest) (n : Nat) :
    List.Forall₂ E (forest.take n) ((stack.take n).map Prod.snd) := by
  rw [List.map_take]
  exact List.forall₂_take n h.forall₂

/-! ### Actions -/

theorem Stacked.shift (h : Stacked g E stack forest) (hg : g.WellFormed) (ht : Made g t)
    {word : Word} (haction : t.actionAt (topState stack) word.1 = .shift j) {v : α}
    (hv : E (.leaf word) v) : Stacked g E ((j, v) :: stack) (.leaf word :: forest) := by
  refine .push h ?_ (.leaf _) hv
  rw [roots_cons]
  exact (ht.walk_of_shift hg h.walk_topState haction).1

/-- The trees that a production is reduced from are those that it asks for. -/
theorem Stacked.roots_of_reduce (h : Stacked g E stack forest) (hg : g.WellFormed) (ht : Made g t)
    (haction : t.actionAt (topState stack) a = .reduce p) :
    p < g.prods.size ∧ ((forest.take (g.rhs p).length).reverse).map (Tree.root g) = g.rhs p := by
  obtain ⟨hp, hclosure, -⟩ := ht.reduce_spec hg h.walk_topState haction
  refine ⟨hp, ?_⟩
  obtain ⟨δ, hδ⟩ := (Canonical.read_of_closure (Grammar.isAugmented_augment hg) hclosure).1
  simp only [Grammar.rhs_augment hp, List.take_length] at hδ
  -- the last symbols of what has been read are the roots of the first trees of the forest
  have hmap : forest.map (Tree.root g) = (g.rhs p).reverse ++ δ.reverse := by
    rw [← List.reverse_append, hδ, roots, List.reverse_reverse]
  rw [List.map_reverse, List.map_take, hmap]
  have hlength : (g.rhs p).length = (g.rhs p).reverse.length := List.length_reverse.symm
  rw [hlength, List.take_left, List.reverse_reverse]

/-- What has been read is what was there before a production and the production itself. -/
theorem Stacked.roots_drop (h : Stacked g E stack forest) (hg : g.WellFormed) (ht : Made g t)
    (haction : t.actionAt (topState stack) a = .reduce p) :
    roots g forest = roots g (forest.drop (g.rhs p).length) ++ g.rhs p := by
  obtain ⟨-, hroots⟩ := h.roots_of_reduce hg ht haction
  calc roots g forest
      = roots g (forest.take (g.rhs p).length ++ forest.drop (g.rhs p).length) := by
        rw [List.take_append_drop]
    _ = roots g (forest.drop (g.rhs p).length) ++
          ((forest.take (g.rhs p).length).reverse).map (Tree.root g) := by
        rw [roots, List.map_append, List.reverse_append, roots, List.map_reverse]
    _ = roots g (forest.drop (g.rhs p).length) ++ g.rhs p := by rw [hroots]

/-- There is a state to go on with after a reduction. -/
theorem Stacked.exists_gotoAt (h : Stacked g E stack forest) (hg : g.WellFormed) (ht : Made g t)
    (haction : t.actionAt (topState stack) a = .reduce p) :
    ∃ j, t.gotoAt (topState (stack.drop (g.rhs p).length)) (g.lhs p) = some j := by
  have hwalk := h.walk_topState
  rw [h.roots_drop hg ht haction] at hwalk
  obtain ⟨hp, hne⟩ := ht.nonempty_of_reduce hg hwalk haction
  exact ht.exists_gotoAt hg (h.drop _).walk_topState hne

theorem Stacked.reduce (h : Stacked g E stack forest) (hg : g.WellFormed) (ht : Made g t)
    (haction : t.actionAt (topState stack) a = .reduce p)
    (hgoto : t.gotoAt (topState (stack.drop (g.rhs p).length)) (g.lhs p) = some j) {v : α}
    (hv : E (.node p (forest.take (g.rhs p).length).reverse) v) :
    Stacked g E ((j, v) :: stack.drop (g.rhs p).length)
      (.node p (forest.take (g.rhs p).length).reverse :: forest.drop (g.rhs p).length) := by
  obtain ⟨hp, hroots⟩ := h.roots_of_reduce hg ht haction
  refine .push (h.drop _) ?_ (.node hp hroots ?_) hv
  · rw [roots_cons]
    exact ht.walk_of_gotoAt (h.drop _).walk_topState hgoto
  · intro child hchild
    exact h.isDerivation child (List.mem_of_mem_take (List.mem_reverse.1 hchild))

/-- When the input is accepted, there is one tree for the start symbol. -/
theorem Stacked.accept (h : Stacked g E stack forest) (hg : g.WellFormed) (ht : Made g t)
    (haction : t.actionAt (topState stack) a = .accept) : a = g.eof ∧ ∃ tree q v,
      forest = [tree] ∧ stack = [(q, v)] ∧ tree.root g = .nonterminal g.start ∧
        tree.IsDerivation g ∧ E tree v := by
  obtain ⟨ha, hroots⟩ := ht.accept_spec hg h.walk_topState haction
  refine ⟨ha, ?_⟩
  cases h with
  | nil => exact absurd hroots (by simp [roots])
  | push h hwalk htree hv =>
    rw [roots_cons] at hroots
    obtain ⟨hnil, hroot⟩ := List.append_inj' (hroots.trans (List.nil_append _).symm) rfl
    cases h with
    | nil => exact ⟨_, _, _, rfl, rfl, List.singleton_inj.1 hroot, htree, hv⟩
    | push _ _ _ _ => exact absurd hnil (by simp [roots])

end Tables

end ShiftReduce
