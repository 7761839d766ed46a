import ShiftReduce.Proofs.Lalr.Machine
import ShiftReduce.Proofs.Lalr.Operators

/-!
# Operators that group as declared

The tables of infix operators make exactly the trees that are grouped as precedence says
(`Grammar.IsInfix.accept_iff`). What an operand may look like depends on what stands around it: the
operator before it has to take its root on the right, and the operator that comes has to take it on the
left (`Grammar.Fits`). A grouped tree that fits is put on any stack that ends where an operand has to
come (`Grammar.IsInfix.reaches_grouped`), since its parts fit into the places that they have in it.
Conversely, all operands on the stack are grouped and fit (`Grammar.InOrder`), which every turn keeps.
-/

namespace ShiftReduce

open Collection (walk)
open StateTransition (Reaches)
open Tables (Made Stacked topState turn turn_shift turn_cases turn_eq_none_of_accept end_unique)

namespace Grammar

variable {g : Grammar} {t : Tables} {atom a p : Nat} {ops reduced : List Nat} {b : Option Nat}
  {stack : List (Nat × Tree)} {forest : List Tree} {left words : List Word} {tree : Tree}
  {s s' : Stage}

/-- The operator at the root of the tree is taken by the operator `b` before it and by the operator `a`
that comes, if these exist. -/
def Fits (g : Grammar) (b : Option Nat) (tree : Tree) (a : Nat) : Prop :=
  ∀ op ∈ tree.operator?, (∀ p ∈ b, g.Takes .right p op) ∧ (a ≠ g.eof → g.Takes .left a op)

/-- The left operand fits between the operator before the whole and its own operator. -/
theorem Fits.of_left {op : Nat} (hbefore : ∀ q ∈ b, g.Takes .right q op)
    (htakes : ∀ q ∈ tree.operator?, g.Takes .left op q) : Fits g b tree op := fun q hq =>
  ⟨fun q' hq' => (hbefore q' hq').trans (htakes q hq) (by simp), fun _ => htakes q hq⟩

/-- The right operand fits between its own operator and the one that comes behind the whole. -/
theorem Fits.of_right {op : Nat} (hbehind : a ≠ g.eof → g.Takes .left a op)
    (htakes : ∀ q ∈ tree.operator?, g.Takes .right op q) : Fits g (some op) tree a := by
  intro q hq
  refine ⟨?_, fun hne => (hbehind hne).trans (htakes q hq) (by simp)⟩
  rintro op' ⟨⟩
  exact htakes q hq

namespace IsInfix

/-! ### Every grouped tree is found -/

/-- A production is reduced when its children have been put on the stack. -/
theorem exists_turn_node (h : g.IsInfix atom ops) (ht : Made g t) {children : List Tree}
    {stack' : List (Nat × Tree)} (hp : p < g.prods.size) (hroots : children.map (Tree.root g) = g.rhs p)
    (hstack : Stacked g Eq stack' (children.reverse ++ forest))
    (hdrop : stack'.drop children.length = stack) (hforest : AtOperand g ops (roots g forest) b)
    (ha : t.coming left ∈ ops ∨ t.coming left = g.eof)
    (htakes : ∀ op, g.rhs p = g.binary op → t.coming left ∈ ops → g.Takes .left (t.coming left) op)
    (reduced : List Nat) : ∃ q, turn g t ⟨stack', left, reduced⟩ =
        some ⟨(q, .node p children) :: stack, left, reduced ++ [p]⟩ ∧
      Stacked g Eq ((q, .node p children) :: stack) (.node p children :: forest) := by
  have hread : roots g (children.reverse ++ forest) = roots g forest ++ g.rhs p := by
    rw [← hroots, roots, List.map_append, List.reverse_append, List.map_reverse,
      List.reverse_reverse, roots]
  have hwalk := hstack.walk_topState
  rw [hread] at hwalk
  have haction := h.action_eq_reduce ht hforest hp hwalk ha htakes
  have hlength : children.length = (g.rhs p).length := by rw [← hroots, List.length_map]
  exact ht.exists_turn_node h.wellFormed hlength hstack hdrop haction reduced

/-- A grouped tree that fits is put on every stack that ends where an operand has to come. -/
theorem reaches_grouped (h : g.IsInfix atom ops) (ht : Made g t) (hgrouped : tree.Grouped g.Takes)
    (htree : tree.IsDerivation g) (hstack : Stacked g Eq stack forest)
    (hforest : AtOperand g ops (roots g forest) b) (ha : t.coming left ∈ ops ∨ t.coming left = g.eof)
    (hfits : Fits g b tree (t.coming left)) (reduced : List Nat) :
    ∃ q, Reaches (turn g t) ⟨stack, tree.frontier ++ left, reduced⟩
        ⟨(q, tree) :: stack, left, reduced ++ tree.reductions⟩ ∧
      Stacked g Eq ((q, tree) :: stack) (tree :: forest) := by
  induction hgrouped generalizing stack forest b left reduced with
  | atom p word =>
    cases htree with
    | node hp hroots _ =>
      obtain rfl : word.1 = atom := by
        rcases h.rhs p hp with hrhs | ⟨op, -, hrhs⟩
        · simpa [hrhs, Tree.root] using hroots
        · exact absurd (hroots.trans hrhs) (by simp [binary])
      obtain ⟨j, hj⟩ := h.exists_shift_atom ht hforest hstack.walk_topState
      have hleaf := hstack.shift h.wellFormed ht hj rfl
      have htakes : ∀ op, g.rhs p = g.binary op → t.coming left ∈ ops →
          g.Takes .left (t.coming left) op := fun op hrhs =>
        absurd (hroots.trans hrhs) (by simp [binary])
      obtain ⟨q, hturn, hnode⟩ := h.exists_turn_node ht hp hroots hleaf
        List.drop_one hforest ha htakes reduced
      exact ⟨q, .head (turn_shift hj) (.single hturn), hnode⟩
  | @binary p word left' right hleft hright honLeft honRight ihleft ihright =>
    cases htree with
    | node hp hroots hchildren =>
      obtain ⟨hop, hrhs, hrootLeft, hrootRight⟩ : word.1 ∈ ops ∧ g.rhs p = g.binary word.1 ∧
          left'.root g = .nonterminal g.start ∧ right.root g = .nonterminal g.start := by
        rcases h.rhs p hp with hrhs | ⟨op, hop, hrhs⟩
        · exact absurd (hroots.trans hrhs) (by simp)
        · have heq := hroots.trans hrhs
          simp only [List.map_cons, List.map_nil, binary, Tree.root, List.cons.injEq,
            Symbol.terminal.injEq, and_true] at heq
          obtain ⟨hl, rfl, hr⟩ := heq
          exact ⟨hop, hrhs, hl, hr⟩
      simp only [List.mem_cons, List.not_mem_nil, or_false, forall_eq_or_imp, forall_eq] at hchildren
      obtain ⟨htreeLeft, -, htreeRight⟩ := hchildren
      obtain ⟨hbefore, hbehind⟩ := hfits word.1 rfl
      -- the left operand, up to the operator
      have hcoming : t.coming (word :: (right.frontier ++ left)) ∈ ops := hop
      obtain ⟨q₁, hreaches₁, hstack₁⟩ := ihleft htreeLeft hstack hforest (Or.inl hcoming)
        (Fits.of_left hbefore honLeft) reduced
      have hwalk₁ := hstack₁.walk_topState
      rw [roots_cons, hrootLeft] at hwalk₁
      obtain ⟨j, hj⟩ := h.exists_shift_operator ht hforest hwalk₁ hop hbefore
      have hstack₂ := hstack₁.shift h.wellFormed ht hj (v := .leaf word) rfl
      -- the right operand, up to what comes behind the whole
      have hforest₂ : AtOperand g ops (roots g (.leaf word :: left' :: forest)) (some word.1) := by
        rw [roots_cons, roots_cons, hrootLeft, List.append_assoc]
        exact hforest.operator hop
      obtain ⟨q₃, hreaches₃, hstack₃⟩ := ihright htreeRight hstack₂ hforest₂ ha
        (Fits.of_right hbehind honRight) (reduced ++ left'.reductions)
      have htakes : ∀ op, g.rhs p = g.binary op → t.coming left ∈ ops →
          g.Takes .left (t.coming left) op := by
        intro op hrhs' hmem
        have heq := hrhs.symm.trans hrhs'
        simp only [binary, List.cons.injEq, Symbol.terminal.injEq] at heq
        exact heq.2.1 ▸ hbehind (h.operator_ne_eof hmem)
      obtain ⟨q, hturn, hnode⟩ := h.exists_turn_node ht hp hroots
        hstack₃ rfl hforest ha htakes (reduced ++ left'.reductions ++ right.reductions)
      refine ⟨q, ?_, hnode⟩
      have hfrontier : (Tree.node p [left', .leaf word, right]).frontier ++ left =
          left'.frontier ++ word :: (right.frontier ++ left) := by
        simp [Tree.frontier, Tree.frontierAll]
      have hreductions : reduced ++ (Tree.node p [left', .leaf word, right]).reductions =
          reduced ++ left'.reductions ++ right.reductions ++ [p] := by
        simp [Tree.reductions, Tree.reductionsAll]
      rw [hfrontier, hreductions]
      exact (hreaches₁.tail (turn_shift hj)).trans (hreaches₃.tail hturn)

/-- A grouped derivation tree of the start symbol is accepted. -/
theorem reaches_accept (h : g.IsInfix atom ops) (ht : Made g t) (hparses : tree.Parses g words)
    (hgrouped : tree.Grouped g.Takes) :
    ∃ q, Reaches (turn g t) ⟨[], words, []⟩ ⟨[(q, tree)], [], tree.reductions⟩ ∧
      t.actionOf ⟨[(q, tree)], [], tree.reductions⟩ = .accept := by
  obtain ⟨htree, hroot, rfl⟩ := hparses
  have heof : t.coming [] = g.eof := ht.eof
  have hfits : Fits g none tree (t.coming []) := by
    intro op _
    exact ⟨fun p hp => absurd hp (by simp), fun hne => absurd heof hne⟩
  obtain ⟨q, hreaches, hstack⟩ := h.reaches_grouped ht hgrouped htree .nil .nil (Or.inr heof)
    hfits []
  rw [List.append_nil, List.nil_append] at hreaches
  refine ⟨q, hreaches, ?_⟩
  have hwalk := hstack.walk_topState
  rw [roots_cons, hroot] at hwalk
  rw [Tables.actionOf, heof]
  exact h.action_eq_accept ht hwalk

end IsInfix

/-! ### Every tree that is made is grouped -/

/-- The forest, whose last tree comes first, is operands and operators in turn and waits for an operand.
The operands are grouped and fit, and every operator but the first is taken by the one before it. The
last operator is `b`. -/
inductive Pending (g : Grammar) (ops : List Nat) : List Tree → Option Nat → Prop
  | nil : Pending g ops [] none
  | operator {forest : List Tree} {b : Option Nat} {tree : Tree} {word : Word}
    (h : Pending g ops forest b) (hroot : tree.root g = .nonterminal g.start)
    (hgrouped : tree.Grouped g.Takes) (hfits : Fits g b tree word.1) (hop : word.1 ∈ ops)
    (htakes : ∀ p ∈ b, g.Takes .right p word.1) :
    Pending g ops (.leaf word :: tree :: forest) (some word.1)

theorem Pending.atOperand (h : Pending g ops forest b) : AtOperand g ops (roots g forest) b := by
  induction h with
  | nil => exact .nil
  | operator _ hroot _ _ hop _ ih =>
    rw [roots_cons, roots_cons, hroot, List.append_assoc]
    exact ih.operator hop

/-- The forest waits for an operand, or there is an atom or an operand on top, which is grouped and fits
before the terminal `a` that comes. -/
inductive InOrder (g : Grammar) (atom : Nat) (ops : List Nat) (a : Nat) : List Tree → Prop
  | pending {forest : List Tree} {b : Option Nat} (h : Pending g ops forest b) :
    InOrder g atom ops a forest
  | atom {forest : List Tree} {b : Option Nat} {word : Word} (h : Pending g ops forest b)
    (hword : word.1 = atom) : InOrder g atom ops a (.leaf word :: forest)
  | operand {forest : List Tree} {b : Option Nat} {tree : Tree} (h : Pending g ops forest b)
    (hroot : tree.root g = .nonterminal g.start) (hgrouped : tree.Grouped g.Takes)
    (hfits : Fits g b tree a) : InOrder g atom ops a (tree :: forest)

namespace IsInfix

/-- A shift keeps the forest in order. -/
theorem inOrder_shift (h : g.IsInfix atom ops) (ht : Made g t) {word : Word}
    (horder : InOrder g atom ops word.1 forest) (hstack : Stacked g Eq stack forest) {j : Nat}
    (haction : t.actionAt (topState stack) word.1 = .shift j) :
    InOrder g atom ops a (.leaf word :: forest) := by
  rcases h.of_shift ht hstack.walk_topState haction with ⟨hword, b, hforest⟩ |
    ⟨hop, δ, b, hδ, heq, htakes⟩
  · -- an atom
    cases horder with
    | pending hpending => exact .atom hpending hword
    | atom _ hatom =>
      rw [roots_cons] at hforest
      exact absurd (hatom ▸ hforest.mem_of_append) h.atom_not_mem
    | operand _ hroot _ _ =>
      rw [roots_cons, hroot] at hforest
      exact absurd hforest AtOperand.not_append_nonterminal
  · -- an operator
    cases horder with
    | pending hpending =>
      have hforest := hpending.atOperand
      rw [heq] at hforest
      exact absurd hforest AtOperand.not_append_nonterminal
    | atom _ _ =>
      rw [roots_cons] at heq
      exact absurd (List.append_inj' heq rfl).2 (by simp [Tree.root])
    | operand hpending hroot hgrouped hfits =>
      rw [roots_cons] at heq
      obtain rfl := (List.append_inj' heq rfl).1
      rw [hδ.unique hpending.atOperand] at htakes
      exact .pending (hpending.operator hroot hgrouped hfits hop htakes)

/-- A reduction keeps the forest in order. -/
theorem inOrder_reduce (h : g.IsInfix atom ops) (ht : Made g t)
    (horder : InOrder g atom ops a forest) (hstack : Stacked g Eq stack forest)
    (haction : t.actionAt (topState stack) a = .reduce p) :
    InOrder g atom ops a (.node p (forest.take (g.rhs p).length).reverse ::
      forest.drop (g.rhs p).length) := by
  obtain ⟨hp, δ, b, hδ, heq, htakes⟩ := h.of_reduce ht hstack.walk_topState haction
  have hroot : ∀ children, (Tree.node p children).root g = .nonterminal g.start := fun children => by
    rw [Tree.root, h.lhs p hp]
  rcases h.rhs p hp with hrhs | ⟨op, -, hrhs⟩
  · -- an atom becomes an operand
    rw [hrhs] at heq ⊢
    cases horder with
    | pending hpending =>
      have hforest := hpending.atOperand
      rw [heq] at hforest
      exact absurd hforest.mem_of_append h.atom_not_mem
    | atom hpending _ =>
      exact .operand hpending (hroot _) (.atom p _) fun op hop => absurd hop (by simp [Tree.operator?])
    | operand _ hroot' _ _ =>
      rw [roots_cons, hroot'] at heq
      exact absurd (List.append_inj' heq rfl).2 (by simp)
  · -- an operand becomes the right operand of the operator before it
    have htakes := htakes op hrhs
    rw [hrhs, append_binary] at heq
    rw [hrhs]
    cases horder with
    | pending hpending =>
      have hforest := hpending.atOperand
      rw [heq] at hforest
      exact absurd hforest AtOperand.not_append_nonterminal
    | atom _ _ =>
      rw [roots_cons] at heq
      exact absurd (List.append_inj' heq rfl).2 (by simp [Tree.root])
    | operand hpending _ hgrouped hfits =>
      rw [roots_cons] at heq
      have hbefore := (List.append_inj' heq rfl).1
      cases hpending with
      | nil => exact absurd hbefore (by simp [roots])
      | @operator forest b' left word hpending _ hgrouped' hfits' hop hnext =>
        rw [roots_cons, roots_cons, List.append_assoc] at hbefore
        have hlast := (List.append_inj' hbefore rfl).2
        simp only [Tree.root, List.cons_append, List.nil_append, List.cons.injEq,
          Symbol.terminal.injEq, and_true] at hlast
        obtain rfl := hlast.2
        refine .operand hpending (hroot _) (.binary hgrouped' hgrouped ?_ ?_) ?_
        · intro q hq
          exact (hfits' q hq).2 (h.operator_ne_eof hop)
        · intro q hq
          exact (hfits q hq).1 _ rfl
        · rintro _ ⟨⟩
          exact ⟨hnext, htakes⟩

/-- A turn keeps the forest in order. -/
theorem inOrder_turn (h : g.IsInfix atom ops) (ht : Made g t) (hstack : Stacked g Eq s.stack forest)
    (horder : InOrder g atom ops (t.coming s.left) forest) (hturn : turn g t s = some s') :
    ∃ forest', Stacked g Eq s'.stack forest' ∧ InOrder g atom ops (t.coming s'.left) forest' := by
  rcases turn_cases hstack hturn with ⟨next, word, left, haction, hleft, rfl⟩ |
    ⟨p, next, haction, hgoto, rfl⟩
  · rw [hleft] at horder
    exact ⟨_, hstack.shift h.wellFormed ht haction rfl, h.inOrder_shift ht horder hstack haction⟩
  · exact ⟨_, hstack.reduce h.wellFormed ht haction hgoto rfl,
      h.inOrder_reduce ht horder hstack haction⟩

theorem inOrder_reaches (h : g.IsInfix atom ops) (ht : Made g t)
    (hreaches : Reaches (turn g t) ⟨[], words, []⟩ s) :
    ∃ forest, Stacked g Eq s.stack forest ∧ InOrder g atom ops (t.coming s.left) forest := by
  induction hreaches with
  | refl => exact ⟨[], .nil, .pending .nil⟩
  | tail _ hturn ih =>
    obtain ⟨forest, hstack, horder⟩ := ih
    exact h.inOrder_turn ht hstack horder hturn

/-- What is accepted is grouped. -/
theorem grouped_of_accept (h : g.IsInfix atom ops) (ht : Made g t)
    (hwords : ∀ word ∈ words, word.1 ≠ g.eof) (hreaches : Reaches (turn g t) ⟨[], words, []⟩ s)
    (haccept : t.actionOf s = .accept) :
    ∃ tree : Tree, tree.Parses g words ∧ tree.Grouped g.Takes := by
  obtain ⟨tree, hparses, htrees, -⟩ := ht.exists_trees_of_accept h.wellFormed hwords hreaches haccept
  obtain ⟨forest, hstack, horder⟩ := h.inOrder_reaches ht hreaches
  obtain rfl : forest = [tree] := by
    rw [Stage.trees, hstack.map_snd] at htrees
    rw [← List.reverse_reverse forest, htrees]
    rfl
  refine ⟨tree, hparses, ?_⟩
  cases horder with
  | pending hpending => cases hpending
  | atom _ _ => exact absurd hparses.2.1 (by simp [Tree.root])
  | operand _ _ hgrouped _ => exact hgrouped

/-- There is at most one grouped derivation tree of the start symbol for given words. -/
theorem tree_unique (h : g.IsInfix atom ops) (ht : Made g t) {tree' : Tree}
    (hparses : tree.Parses g words) (hgrouped : tree.Grouped g.Takes) (hparses' : tree'.Parses g words)
    (hgrouped' : tree'.Grouped g.Takes) : tree = tree' := by
  obtain ⟨q, hreaches, haccept⟩ := h.reaches_accept ht hparses hgrouped
  obtain ⟨q', hreaches', haccept'⟩ := h.reaches_accept ht hparses' hgrouped'
  have heq := end_unique hreaches (turn_eq_none_of_accept haccept) hreaches'
    (turn_eq_none_of_accept haccept')
  simp only [Stage.mk.injEq, List.cons.injEq, Prod.mk.injEq] at heq
  exact heq.1.1.2

/-- The tables come to an end on all words, and they accept exactly those of a grouped tree. This tree is
then the one on the stack. -/
theorem accept_iff (h : g.IsInfix atom ops) (ht : Made g t) (hwords : ∀ word ∈ words, word.1 ≠ g.eof) :
    ∃ s, Reaches (turn g t) ⟨[], words, []⟩ s ∧ turn g t s = none ∧
      (t.actionOf s = .accept ∨ t.actionOf s = .error) ∧
      (t.actionOf s = .accept ↔ ∃ tree : Tree, tree.Parses g words ∧ tree.Grouped g.Takes) ∧
      ∀ tree : Tree, tree.Parses g words → tree.Grouped g.Takes →
        s.trees = [tree] ∧ s.left = [] ∧ s.reduced = tree.reductions := by
  obtain ⟨s, hreaches, hend⟩ : ∃ s, Reaches (turn g t) ⟨[], words, []⟩ s ∧ turn g t s = none :=
    ht.exists_end_of_halts h.wellFormed (h.halts ht) .nil
  obtain ⟨forest, hstack, -⟩ := ht.stacked_of_reaches h.wellFormed .nil hreaches
  have hfound : ∀ {tree : Tree}, tree.Parses g words → tree.Grouped g.Takes →
      ∃ q, s = ⟨[(q, tree)], [], tree.reductions⟩ ∧ t.actionOf s = .accept := by
    intro tree hparses hgrouped
    obtain ⟨q, hreaches', haccept⟩ := h.reaches_accept ht hparses hgrouped
    obtain rfl := end_unique hreaches hend hreaches' (turn_eq_none_of_accept haccept)
    exact ⟨q, rfl, haccept⟩
  refine ⟨s, hreaches, hend, ht.accept_or_error_of_turn_none h.wellFormed hstack hend, ?_, ?_⟩
  · refine ⟨h.grouped_of_accept ht hwords hreaches, ?_⟩
    rintro ⟨tree, hparses, hgrouped⟩
    obtain ⟨-, -, haccept⟩ := hfound hparses hgrouped
    exact haccept
  · intro tree hparses hgrouped
    obtain ⟨q, rfl, -⟩ := hfound hparses hgrouped
    exact ⟨rfl, rfl, rfl⟩

end IsInfix

end Grammar

end ShiftReduce
