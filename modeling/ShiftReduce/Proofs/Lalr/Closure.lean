import Mathlib.Algebra.BigOperators.Group.Finset.Piecewise
import Mathlib.Algebra.BigOperators.Ring.Finset
import Mathlib.Algebra.Order.BigOperators.Group.Finset
import Mathlib.Algebra.Order.Group.Nat
import ShiftReduce.Lalr.Item
import ShiftReduce.Proofs.Lalr.First

/-!
# The closure of a kernel

`Closure.ofKernel` works with a stack of items whose consequences have not been drawn yet. This
module says what comes out. The blocks are read as a partial function from nonterminals to
lookaheads (`Block.lookOf`), and one step changes it at one nonterminal at most
(`lookOf_expand`).

* What is added follows from the kernel (`ofKernel_sound`): a property of items that is handed on
  from an item to the items it calls for holds of all of them if it holds of the kernel.
* Nothing is missing (`ofKernel_saturated`): the stack is empty at the end, and an item that is not
  on the stack has had its consequences drawn.

The number of steps is enough because an item comes back onto the stack only if the lookaheads of
its block have grown (`spent`).
-/

namespace ShiftReduce

namespace Block

@[simp] theorem lookOf_nil (n : Nat) : lookOf [] n = none := rfl

theorem lookOf_cons (b : Block) (blocks : List Block) (n : Nat) :
    lookOf (b :: blocks) n = if b.nt = n then some b.look else lookOf blocks n := by
  by_cases h : b.nt = n
  · simp [lookOf, h]
  · simp [lookOf, h]

theorem lookOf_append_singleton {blocks : List Block} {n : Nat} (hn : lookOf blocks n = none)
    (look : IdSet) (m : Nat) :
    lookOf (blocks ++ [⟨n, look⟩]) m = if m = n then some look else lookOf blocks m := by
  induction blocks with
  | nil => simp [lookOf_cons, eq_comm]
  | cons b blocks ih =>
    rw [lookOf_cons] at hn
    split at hn
    · exact absurd hn (by simp)
    · next hb =>
      rw [List.cons_append, lookOf_cons, ih hn, lookOf_cons]
      by_cases hm : m = n
      · subst hm
        simp [hb]
      · simp [hm]

theorem lookOf_grow (blocks : List Block) (n : Nat) (look : IdSet) (m : Nat) :
    lookOf (grow blocks n look) m =
      if m = n then (lookOf blocks n).map (· ∪ look) else lookOf blocks m := by
  induction blocks with
  | nil => simp [grow]
  | cons b blocks ih =>
    have hcons : grow (b :: blocks) n look =
        (if b.nt = n then { b with look := b.look ∪ look } else b) :: grow blocks n look := rfl
    rw [hcons, lookOf_cons, lookOf_cons, lookOf_cons, ih]
    by_cases hb : b.nt = n
    · by_cases hm : m = n
      · simp [hb, hm]
      · simp [hb, hm, Ne.symm hm]
    · by_cases hm : m = n
      · simp [hb, hm]
      · simp [hb, hm]

theorem lookOf_eq_none_iff {blocks : List Block} {n : Nat} :
    lookOf blocks n = none ↔ n ∉ blocks.map Block.nt := by
  simp [lookOf]

theorem map_nt_grow (blocks : List Block) (n : Nat) (look : IdSet) :
    (grow blocks n look).map Block.nt = blocks.map Block.nt := by
  rw [grow, List.map_map]
  apply List.map_congr_left
  intro b _
  simp only [Function.comp]
  split <;> rfl

/-- If no nonterminal has two blocks, then the blocks are the values of `lookOf`. -/
theorem mem_iff_lookOf {blocks : List Block} (h : (blocks.map Block.nt).Nodup) {b : Block} :
    b ∈ blocks ↔ lookOf blocks b.nt = some b.look := by
  induction blocks with
  | nil => simp
  | cons a blocks ih =>
    obtain ⟨ha, hblocks⟩ := List.nodup_cons.1 h
    rw [lookOf_cons, List.mem_cons, ih hblocks]
    by_cases hab : a.nt = b.nt
    · rw [if_pos hab, Option.some.injEq]
      have hnone : lookOf blocks b.nt = none := lookOf_eq_none_iff.2 (hab ▸ ha)
      constructor
      · rintro (rfl | hb)
        · rfl
        · rw [hnone] at hb
          exact absurd hb (by simp)
      · intro hlook
        left
        cases a
        cases b
        simp_all
    · rw [if_neg hab]
      constructor
      · rintro (rfl | hb)
        · exact absurd rfl hab
        · exact hb
      · exact Or.inr

end Block

namespace Closure

open Block

variable {g : Grammar}

/-! ### One step -/

/-- The lookaheads that an item hands on to the productions of the nonterminal after its dot, before
`rest`. -/
def handed (g : Grammar) (item : Item) (rest : List Symbol) : IdSet :=
  (FirstSets.compute g).ofSymbols item.look rest

theorem expand_of_rest {blocks : List Block} {item : Item}
    (h : ∀ n rest, item.core.rest g ≠ .nonterminal n :: rest) :
    expand g (FirstSets.compute g) blocks item = (blocks, []) := by
  unfold expand
  split
  · next n rest heq => exact absurd heq (h n rest)
  · rfl

/-- What one step does, if there is a nonterminal after the dot: it adds a block, or nothing, or it
adds to a block. -/
theorem expand_cases (blocks : List Block) {item : Item} {n : Nat} {rest : List Symbol}
    (h : item.core.rest g = .nonterminal n :: rest) :
    (lookOf blocks n = none ∧ expand g (FirstSets.compute g) blocks item =
      (blocks ++ [⟨n, handed g item rest⟩], (g.prodsOf n).map (Pending.added n))) ∨
    ∃ old, lookOf blocks n = some old ∧
      (((∀ t ∈ handed g item rest, t ∈ old) ∧
        expand g (FirstSets.compute g) blocks item = (blocks, [])) ∨
      ((¬ ∀ t ∈ handed g item rest, t ∈ old) ∧ expand g (FirstSets.compute g) blocks item =
        (grow blocks n (handed g item rest), (g.prodsOf n).map (Pending.added n)))) := by
  unfold expand
  rw [h]
  simp only
  cases hlook : lookOf blocks n with
  | none => exact Or.inl ⟨rfl, rfl⟩
  | some old =>
    refine Or.inr ⟨old, rfl, ?_⟩
    by_cases hsub : ((FirstSets.compute g).ofSymbols item.look rest).subset old = true
    · exact Or.inl ⟨IdSet.subset_iff.1 hsub, if_pos hsub⟩
    · exact Or.inr ⟨fun hall => hsub (IdSet.subset_iff.2 hall), if_neg hsub⟩

/-- One step adds the lookaheads that are handed on to those of one nonterminal. -/
theorem lookOf_expand {blocks : List Block} {item : Item} {n : Nat} {rest : List Symbol}
    (h : item.core.rest g = .nonterminal n :: rest) (m : Nat) :
    lookOf (expand g (FirstSets.compute g) blocks item).1 m =
      if m = n then some ((lookOf blocks n).getD ∅ ∪ handed g item rest) else lookOf blocks m := by
  rcases expand_cases blocks h with ⟨hnone, heq⟩ | ⟨old, hold, ⟨hsub, heq⟩ | ⟨-, heq⟩⟩
  · have hempty : (∅ : IdSet) ∪ handed g item rest = handed g item rest :=
      IdSet.ext fun i => by simp
    rw [heq, lookOf_append_singleton hnone, hnone, Option.getD_none, hempty]
  · have hunion : old ∪ handed g item rest = old := by
      apply IdSet.ext
      intro i
      rw [IdSet.mem_union]
      exact ⟨fun hi => hi.elim id (hsub i), Or.inl⟩
    rw [heq, hold, Option.getD_some, hunion]
    split
    · next hm => rw [hm, hold]
    · rfl
  · rw [heq, lookOf_grow, hold]
    rfl

theorem nodup_expand {blocks : List Block} (hblocks : (blocks.map Block.nt).Nodup) (item : Item) :
    ((expand g (FirstSets.compute g) blocks item).1.map Block.nt).Nodup := by
  by_cases h : ∃ n rest, item.core.rest g = .nonterminal n :: rest
  · obtain ⟨n, rest, h⟩ := h
    rcases expand_cases blocks h with ⟨hnone, heq⟩ | ⟨old, -, ⟨-, heq⟩ | ⟨-, heq⟩⟩
    · rw [heq, List.map_append, List.map_singleton, List.nodup_append]
      refine ⟨hblocks, List.nodup_singleton _, ?_⟩
      intro a ha b hb
      rw [List.mem_singleton.1 hb]
      rintro rfl
      exact lookOf_eq_none_iff.1 hnone ha
    · rw [heq]
      exact hblocks
    · rw [heq, map_nt_grow]
      exact hblocks
  · rw [expand_of_rest fun n rest heq => h ⟨n, rest, heq⟩]
    exact hblocks

/-! ### What is added follows from the kernel -/

/-- A property `W` of cores and a property `V` of cores with a lookahead that an item hands on to the
productions of the nonterminal after its dot. The terminals with which the rest can begin are handed
on whether or not the item has a lookahead of its own. -/
structure HandedOn (g : Grammar) (W : Core → Prop) (V : Core → Nat → Prop) : Prop where
  core : ∀ {c n rest p}, W c → c.rest g = .nonterminal n :: rest → p ∈ g.prodsOf n → W ⟨p, 0⟩
  begins : ∀ {c n rest p t}, W c → c.rest g = .nonterminal n :: rest → p ∈ g.prodsOf n →
    g.Begins t rest → V ⟨p, 0⟩ t
  vanishes : ∀ {c n rest p t}, V c t → c.rest g = .nonterminal n :: rest → p ∈ g.prodsOf n →
    g.Vanishes rest → V ⟨p, 0⟩ t

/-- The core of an item has the property `W`, and with each lookahead the property `V`. -/
def Fits (W : Core → Prop) (V : Core → Nat → Prop) (item : Item) : Prop :=
  W item.core ∧ ∀ t ∈ item.look, V item.core t

/-- All items of the blocks have the properties. -/
def BlocksFit (g : Grammar) (W : Core → Prop) (V : Core → Nat → Prop) (blocks : List Block) :
    Prop :=
  ∀ n look, lookOf blocks n = some look → ∀ p ∈ g.prodsOf n, Fits W V ⟨⟨p, 0⟩, look⟩

theorem blocksFit_expand (hg : g.InRange) {W : Core → Prop} {V : Core → Nat → Prop}
    (hWV : HandedOn g W V) {blocks : List Block} (hblocks : BlocksFit g W V blocks) {item : Item}
    (hitem : Fits W V item) :
    BlocksFit g W V (expand g (FirstSets.compute g) blocks item).1 := by
  by_cases h : ∃ n rest, item.core.rest g = .nonterminal n :: rest
  · obtain ⟨n, rest, h⟩ := h
    intro m look hlook p hp
    rw [lookOf_expand h] at hlook
    split at hlook
    · next hm =>
      subst hm
      rw [Option.some.injEq] at hlook
      subst hlook
      refine ⟨hWV.core hitem.1 h hp, ?_⟩
      intro t ht
      rcases IdSet.mem_union.1 ht with ht | ht
      · cases hold : lookOf blocks m with
        | none =>
          rw [hold] at ht
          exact absurd ht (IdSet.not_mem_empty t)
        | some old =>
          rw [hold] at ht
          exact (hblocks m old hold p hp).2 t ht
      · rcases (FirstSets.mem_ofSymbols_compute hg).1 ht with ht | ⟨hrest, ht⟩
        · exact hWV.begins hitem.1 h hp ht
        · exact hWV.vanishes (hitem.2 t ht) h hp hrest
    · exact hblocks m look hlook p hp
  · rw [expand_of_rest fun n rest heq => h ⟨n, rest, heq⟩]
    exact hblocks

/-- An item on the stack is one of the kernel that has the properties, or belongs to a production of
the nonterminal of its block. -/
def PendingFits (g : Grammar) (W : Core → Prop) (V : Core → Nat → Prop) (blocks : List Block) :
    Pending → Prop
  | .kernel item => Fits W V item
  | .added n p => p ∈ g.prodsOf n ∧ ∃ look, lookOf blocks n = some look

theorem PendingFits.fits {W : Core → Prop} {V : Core → Nat → Prop} {blocks : List Block}
    (hblocks : BlocksFit g W V blocks) {x : Pending} (hx : PendingFits g W V blocks x) :
    Fits W V (x.item blocks) := by
  cases x with
  | kernel item => exact hx
  | added n p =>
    obtain ⟨hp, look, hlook⟩ := hx
    rw [Pending.item, hlook]
    exact hblocks n look hlook p hp

/-- A nonterminal that has a block keeps it, with at least the same lookaheads. -/
theorem exists_lookOf_expand {blocks : List Block} (item : Item) {n : Nat} {look : IdSet}
    (h : lookOf blocks n = some look) :
    ∃ look', lookOf (expand g (FirstSets.compute g) blocks item).1 n = some look' ∧
      ∀ t ∈ look, t ∈ look' := by
  by_cases hrest : ∃ m rest, item.core.rest g = .nonterminal m :: rest
  · obtain ⟨m, rest, hrest⟩ := hrest
    rw [lookOf_expand hrest]
    split
    · next hn =>
      subst hn
      rw [h]
      exact ⟨_, rfl, fun t ht => IdSet.mem_union.2 (Or.inl ht)⟩
    · exact ⟨look, h, fun t ht => ht⟩
  · rw [expand_of_rest fun m rest heq => hrest ⟨m, rest, heq⟩]
    exact ⟨look, h, fun t ht => ht⟩

theorem PendingFits.expand {W : Core → Prop} {V : Core → Nat → Prop} {blocks : List Block}
    {x : Pending} (hx : PendingFits g W V blocks x) (item : Item) :
    PendingFits g W V (expand g (FirstSets.compute g) blocks item).1 x := by
  cases x with
  | kernel item => exact hx
  | added n p =>
    obtain ⟨hp, look, hlook⟩ := hx
    obtain ⟨look', hlook', -⟩ := exists_lookOf_expand (g := g) item hlook
    exact ⟨hp, look', hlook'⟩

/-- The items put on the stack belong to the block that has changed. -/
theorem mem_pushed {blocks : List Block} {item : Item} {x : Pending}
    (hx : x ∈ (expand g (FirstSets.compute g) blocks item).2) :
    ∃ n rest p, item.core.rest g = .nonterminal n :: rest ∧ p ∈ g.prodsOf n ∧ x = .added n p := by
  by_cases h : ∃ n rest, item.core.rest g = .nonterminal n :: rest
  · obtain ⟨n, rest, h⟩ := h
    have hmap : x ∈ (g.prodsOf n).map (Pending.added n) →
        ∃ n rest p, item.core.rest g = .nonterminal n :: rest ∧ p ∈ g.prodsOf n ∧
          x = .added n p := by
      intro hx
      obtain ⟨p, hp, rfl⟩ := List.mem_map.1 hx
      exact ⟨n, rest, p, h, hp, rfl⟩
    rcases expand_cases blocks h with ⟨-, heq⟩ | ⟨old, -, ⟨-, heq⟩ | ⟨-, heq⟩⟩
    · rw [heq] at hx
      exact hmap hx
    · rw [heq] at hx
      exact absurd hx (by simp)
    · rw [heq] at hx
      exact hmap hx
  · rw [expand_of_rest fun n rest heq => h ⟨n, rest, heq⟩] at hx
    exact absurd hx (by simp)

theorem pendingFits_pushed {W : Core → Prop} {V : Core → Nat → Prop} {blocks : List Block}
    {item : Item} {x : Pending} (hx : x ∈ (expand g (FirstSets.compute g) blocks item).2) :
    PendingFits g W V (expand g (FirstSets.compute g) blocks item).1 x := by
  obtain ⟨n, rest, p, hrest, hp, rfl⟩ := mem_pushed hx
  exact ⟨hp, _, by rw [lookOf_expand hrest, if_pos rfl]⟩

theorem saturate_cons (fuel : Nat) (x : Pending) (stack : List Pending) (blocks : List Block) :
    saturate g (FirstSets.compute g) (fuel + 1) (x :: stack) blocks =
      saturate g (FirstSets.compute g) fuel
        ((expand g (FirstSets.compute g) blocks (x.item blocks)).2.reverse ++ stack)
        (expand g (FirstSets.compute g) blocks (x.item blocks)).1 := rfl

theorem saturate_sound (hg : g.InRange) {W : Core → Prop} {V : Core → Nat → Prop}
    (hWV : HandedOn g W V) (fuel : Nat) {stack : List Pending} {blocks : List Block}
    (hstack : ∀ x ∈ stack, PendingFits g W V blocks x) (hblocks : BlocksFit g W V blocks) :
    BlocksFit g W V (saturate g (FirstSets.compute g) fuel stack blocks) := by
  induction fuel generalizing stack blocks with
  | zero => exact hblocks
  | succ fuel ih =>
    cases stack with
    | nil => exact hblocks
    | cons x stack =>
      obtain ⟨hx, hstack⟩ := List.forall_mem_cons.1 hstack
      rw [saturate_cons]
      refine ih ?_ (blocksFit_expand hg hWV hblocks (hx.fits hblocks))
      intro y hy
      rcases List.mem_append.1 hy with hy | hy
      · exact pendingFits_pushed (List.mem_reverse.1 hy)
      · exact (hstack y hy).expand _

/-- What holds of the kernel and is handed on holds of all items of the closure. -/
theorem ofKernel_sound (hg : g.InRange) {W : Core → Prop} {V : Core → Nat → Prop}
    (hWV : HandedOn g W V) {kernel : List Item} (h : ∀ item ∈ kernel, Fits W V item) :
    BlocksFit g W V (ofKernel g (FirstSets.compute g) kernel) := by
  refine saturate_sound hg hWV _ ?_ fun n look hlook => absurd hlook (by simp)
  intro x hx
  obtain ⟨item, hitem, rfl⟩ := List.mem_map.1 hx
  exact h item hitem

theorem nodup_saturate (fuel : Nat) {stack : List Pending} {blocks : List Block}
    (hblocks : (blocks.map Block.nt).Nodup) :
    ((saturate g (FirstSets.compute g) fuel stack blocks).map Block.nt).Nodup := by
  induction fuel generalizing stack blocks with
  | zero => exact hblocks
  | succ fuel ih =>
    cases stack with
    | nil => exact hblocks
    | cons x stack =>
      rw [saturate_cons]
      exact ih (nodup_expand hblocks _)

/-- No nonterminal has two blocks. -/
theorem nodup_ofKernel (kernel : List Item) :
    ((ofKernel g (FirstSets.compute g) kernel).map Block.nt).Nodup :=
  nodup_saturate _ List.nodup_nil

/-! ### The number of steps is enough -/

/-- What has been paid for so far: every production of a nonterminal that has a block counts once for
the block and once for each of its lookaheads. -/
def spent (g : Grammar) (blocks : List Block) : Nat :=
  ∑ n ∈ Finset.range g.nts.size,
    (g.prodsOf n).length * ((lookOf blocks n).elim 0 fun look => look.card + 1)

theorem sum_length_prodsOf_le (hg : g.ListsOwn) :
    ∑ n ∈ Finset.range g.nts.size, (g.prodsOf n).length ≤ g.prods.size := by
  have hcard : ∀ n, (g.prodsOf n).length = (g.prodsOf n).toFinset.card := fun n =>
    (List.toFinset_card_of_nodup (hg.nodup_prodsOf n)).symm
  have hunion : ((Finset.range g.nts.size).biUnion fun n => (g.prodsOf n).toFinset).card =
      ∑ n ∈ Finset.range g.nts.size, (g.prodsOf n).toFinset.card := by
    apply Finset.card_biUnion
    intro m _ n _ hmn
    rw [Function.onFun, Finset.disjoint_left]
    intro p hm hn
    apply hmn
    rw [← hg.lhs_of_mem_prodsOf m p (List.mem_toFinset.1 hm)]
    exact hg.lhs_of_mem_prodsOf n p (List.mem_toFinset.1 hn)
  simp only [hcard]
  rw [← hunion, ← Finset.card_range g.prods.size]
  apply Finset.card_le_card
  intro p hp
  obtain ⟨n, -, hp⟩ := Finset.mem_biUnion.1 hp
  exact Finset.mem_range.2 (hg.lt_of_mem_prodsOf n p (List.mem_toFinset.1 hp))

theorem begins_lt (hg : g.InRange) {t : Nat} {xs : List Symbol} (h : g.Begins t xs)
    (hxs : ∀ u, .terminal u ∈ xs → u < g.terminals.size) : t < g.terminals.size := by
  induction h with
  | here rest => exact hxs t List.mem_cons_self
  | @inside p rest hp _ ih => exact ih fun u hu => hg.terminal_lt p u hu
  | behind _ _ ih => exact ih fun u hu => hxs u (List.mem_cons_of_mem _ hu)

/-- Existing terminals hand on existing terminals. -/
theorem handedOn_lt (hg : g.InRange) :
    HandedOn g (fun _ => True) fun _ t => t < g.terminals.size where
  core _ _ _ := trivial
  begins {c n rest p t} _ hrest _ ht := by
    refine begins_lt hg ht fun u hu => hg.terminal_lt c.prod u ?_
    have : .terminal u ∈ c.rest g := by
      rw [hrest]
      exact List.mem_cons_of_mem _ hu
    exact List.mem_of_mem_drop this
  vanishes ht _ _ _ := ht

theorem spent_le (hg : g.ListsOwn) {blocks : List Block}
    (hblocks : BlocksFit g (fun _ => True) (fun _ t => t < g.terminals.size) blocks) :
    spent g blocks ≤ g.prods.size * (g.terminals.size + 1) := by
  calc spent g blocks
      ≤ ∑ n ∈ Finset.range g.nts.size, (g.prodsOf n).length * (g.terminals.size + 1) := by
        apply Finset.sum_le_sum
        intro n _
        cases hlook : lookOf blocks n with
        | none => simp
        | some look =>
          cases hprods : g.prodsOf n with
          | nil => simp
          | cons p ps =>
            have hp : p ∈ g.prodsOf n := by
              rw [hprods]
              exact List.mem_cons_self
            have := IdSet.card_le_of_below (hblocks n look hlook p hp).2
            exact Nat.mul_le_mul_left _ (Nat.succ_le_succ this)
    _ = (∑ n ∈ Finset.range g.nts.size, (g.prodsOf n).length) * (g.terminals.size + 1) := by
        rw [Finset.sum_mul]
    _ ≤ g.prods.size * (g.terminals.size + 1) :=
        Nat.mul_le_mul_right _ (sum_length_prodsOf_le hg)

/-- Items are put on the stack only together with a block or a lookahead that pays for them. -/
theorem spent_expand (blocks : List Block) (item : Item) :
    spent g blocks + (expand g (FirstSets.compute g) blocks item).2.length ≤
      spent g (expand g (FirstSets.compute g) blocks item).1 := by
  by_cases h : ∃ n rest, item.core.rest g = .nonterminal n :: rest
  · obtain ⟨n, rest, h⟩ := h
    -- at `n` the number grows by the length of what is put on the stack, and nowhere else
    have hpoint : ∀ m, (g.prodsOf m).length * ((lookOf blocks m).elim 0 fun look => look.card + 1) +
        (if m = n then (expand g (FirstSets.compute g) blocks item).2.length else 0) ≤
        (g.prodsOf m).length * ((lookOf (expand g (FirstSets.compute g) blocks item).1 m).elim 0
          fun look => look.card + 1) := by
      intro m
      rw [lookOf_expand h]
      by_cases hm : m = n
      · subst hm
        rw [if_pos rfl, if_pos rfl]
        rcases expand_cases blocks h with ⟨hnone, heq⟩ | ⟨old, hold, ⟨hsub, heq⟩ | ⟨hsub, heq⟩⟩
        · rw [heq, hnone, List.length_map]
          simp only [Option.elim]
          rw [Nat.mul_zero, Nat.zero_add]
          exact Nat.le_mul_of_pos_right _ (Nat.succ_pos _)
        · rw [heq, hold]
          simp only [Option.elim, Option.getD_some, List.length_nil, Nat.add_zero]
          refine Nat.mul_le_mul_left _ (Nat.succ_le_succ (IdSet.card_le_card ?_))
          exact fun t ht => IdSet.mem_union.2 (Or.inl ht)
        · rw [heq, hold, List.length_map]
          simp only [Option.elim, Option.getD_some]
          rw [← Nat.mul_succ]
          refine Nat.mul_le_mul_left _ (Nat.succ_le_succ (IdSet.card_lt_card_union ?_))
          intro hunion
          apply hsub
          intro t ht
          rw [← hunion]
          exact IdSet.mem_union.2 (Or.inr ht)
      · rw [if_neg hm, if_neg hm]
        exact Nat.le_refl _
    by_cases hn : n < g.nts.size
    · have hsum := Finset.sum_le_sum fun m (_ : m ∈ Finset.range g.nts.size) => hpoint m
      rw [Finset.sum_add_distrib, Finset.sum_ite_eq', if_pos (Finset.mem_range.2 hn)] at hsum
      exact hsum
    · have hnil : (expand g (FirstSets.compute g) blocks item).2 = [] := by
        rw [List.eq_nil_iff_forall_not_mem]
        intro x hx
        obtain ⟨m, rest', p, hrest, hp, -⟩ := mem_pushed hx
        rw [h] at hrest
        obtain ⟨hmn, -⟩ := List.cons.inj hrest
        rw [← Symbol.nonterminal.inj hmn, Grammar.prodsOf_eq_nil (Nat.le_of_not_lt hn)] at hp
        exact absurd hp (by simp)
      rw [hnil, List.length_nil, Nat.add_zero]
      refine Finset.sum_le_sum fun m _ => ?_
      exact Nat.le_trans (Nat.le_add_right _ _) (hpoint m)
  · rw [expand_of_rest fun n rest heq => h ⟨n, rest, heq⟩]
    simp

/-! ### Nothing is missing -/

/-- The consequences of an item have been drawn. -/
def Drawn (g : Grammar) (blocks : List Block) (item : Item) : Prop :=
  ∀ n rest, item.core.rest g = .nonterminal n :: rest →
    ∃ look, lookOf blocks n = some look ∧ ∀ t ∈ handed g item rest, t ∈ look

/-- An item of the kernel or of one of the blocks. -/
def Belongs (g : Grammar) (kernel : List Item) (blocks : List Block) : Pending → Prop
  | .kernel item => item ∈ kernel
  | .added n p => p ∈ g.prodsOf n ∧ ∃ look, lookOf blocks n = some look

theorem Drawn.expand {blocks : List Block} {item : Item} (h : Drawn g blocks item) (other : Item) :
    Drawn g (expand g (FirstSets.compute g) blocks other).1 item := by
  intro n rest hrest
  obtain ⟨look, hlook, hsub⟩ := h n rest hrest
  obtain ⟨look', hlook', hle⟩ := exists_lookOf_expand (g := g) other hlook
  exact ⟨look', hlook', fun t ht => hle t (hsub t ht)⟩

theorem drawn_expand_self (blocks : List Block) (item : Item) :
    Drawn g (expand g (FirstSets.compute g) blocks item).1 item := by
  intro n rest hrest
  exact ⟨_, by rw [lookOf_expand hrest, if_pos rfl], fun t ht => IdSet.mem_union.2 (Or.inr ht)⟩

/-- The items of a block that has changed are on the stack again. -/
theorem mem_pushed_or_lookOf_eq (blocks : List Block) (item : Item) {n p : Nat}
    (hp : p ∈ g.prodsOf n) : Pending.added n p ∈ (expand g (FirstSets.compute g) blocks item).2 ∨
      lookOf (expand g (FirstSets.compute g) blocks item).1 n = lookOf blocks n := by
  by_cases h : ∃ m rest, item.core.rest g = .nonterminal m :: rest
  · obtain ⟨m, rest, h⟩ := h
    by_cases hn : n = m
    · subst hn
      rcases expand_cases blocks h with ⟨-, heq⟩ | ⟨old, -, ⟨-, heq⟩ | ⟨-, heq⟩⟩
      · rw [heq]
        exact Or.inl (List.mem_map_of_mem hp)
      · rw [heq]
        exact Or.inr rfl
      · rw [heq]
        exact Or.inl (List.mem_map_of_mem hp)
    · rw [lookOf_expand h, if_neg hn]
      exact Or.inr rfl
  · rw [expand_of_rest fun m rest heq => h ⟨m, rest, heq⟩]
    exact Or.inr rfl

/-- What a step keeps: an item that is not on the stack has had its consequences drawn. -/
theorem drawn_step {kernel : List Item} {blocks : List Block} {x : Pending} {stack : List Pending}
    (h : ∀ y, Belongs g kernel blocks y → y ∈ x :: stack ∨ Drawn g blocks (y.item blocks))
    {y : Pending}
    (hy : Belongs g kernel (expand g (FirstSets.compute g) blocks (x.item blocks)).1 y) :
    y ∈ (expand g (FirstSets.compute g) blocks (x.item blocks)).2.reverse ++ stack ∨
      Drawn g (expand g (FirstSets.compute g) blocks (x.item blocks)).1
        (y.item (expand g (FirstSets.compute g) blocks (x.item blocks)).1) := by
  -- an item that has not been put on the stack has the same lookaheads as before
  have hsame : y ∈ (expand g (FirstSets.compute g) blocks (x.item blocks)).2 ∨
      Belongs g kernel blocks y ∧
        y.item (expand g (FirstSets.compute g) blocks (x.item blocks)).1 = y.item blocks := by
    cases y with
    | kernel item => exact Or.inr ⟨hy, rfl⟩
    | added n p =>
      obtain ⟨hp, look, hlook⟩ := hy
      rcases mem_pushed_or_lookOf_eq blocks (x.item blocks) hp with hmem | heq
      · exact Or.inl hmem
      · rw [heq] at hlook
        refine Or.inr ⟨⟨hp, look, hlook⟩, ?_⟩
        rw [Pending.item, Pending.item, heq]
  rcases hsame with hmem | ⟨hbelongs, heq⟩
  · exact Or.inl (List.mem_append_left _ (List.mem_reverse.2 hmem))
  · rw [heq]
    rcases h y hbelongs with hmem | hdrawn
    · rcases List.mem_cons.1 hmem with rfl | hmem
      · exact Or.inr (drawn_expand_self blocks _)
      · exact Or.inl (List.mem_append_right _ hmem)
    · exact Or.inr (hdrawn.expand _)

theorem saturate_drawn (hrange : g.InRange) (hown : g.ListsOwn) {kernel : List Item} {fuel : Nat}
    {stack : List Pending} {blocks : List Block}
    (hstack : ∀ x ∈ stack, PendingFits g (fun _ => True) (fun _ t => t < g.terminals.size) blocks x)
    (hblocks : BlocksFit g (fun _ => True) (fun _ t => t < g.terminals.size) blocks)
    (h : ∀ x, Belongs g kernel blocks x → x ∈ stack ∨ Drawn g blocks (x.item blocks))
    (hfuel : stack.length + g.prods.size * (g.terminals.size + 1) < fuel + spent g blocks) :
    ∀ x, Belongs g kernel (saturate g (FirstSets.compute g) fuel stack blocks) x →
      Drawn g (saturate g (FirstSets.compute g) fuel stack blocks)
        (x.item (saturate g (FirstSets.compute g) fuel stack blocks)) := by
  induction fuel generalizing stack blocks with
  | zero =>
    have := spent_le hown hblocks
    omega
  | succ fuel ih =>
    cases stack with
    | nil =>
      intro x hx
      exact (h x hx).resolve_left (by simp)
    | cons x stack =>
      obtain ⟨hx, hstack⟩ := List.forall_mem_cons.1 hstack
      rw [saturate_cons]
      refine ih ?_ ?_ (fun y hy => drawn_step h hy) ?_
      · intro y hy
        rcases List.mem_append.1 hy with hy | hy
        · exact pendingFits_pushed (List.mem_reverse.1 hy)
        · exact (hstack y hy).expand _
      · exact blocksFit_expand hrange (handedOn_lt hrange) hblocks (hx.fits hblocks)
      · have := spent_expand (g := g) blocks (x.item blocks)
        simp only [List.length_append, List.length_reverse, List.length_cons] at hfuel ⊢
        omega

/-- The lookaheads of the items of a kernel are terminals of the grammar. -/
def KernelBelow (g : Grammar) (kernel : List Item) : Prop :=
  ∀ item ∈ kernel, item.look.Below g.terminals.size

/-- The closure misses nothing: the consequences of all its items have been drawn. -/
theorem ofKernel_saturated (hrange : g.InRange) (hown : g.ListsOwn) {kernel : List Item}
    (hkernel : KernelBelow g kernel) {x : Pending}
    (hx : Belongs g kernel (ofKernel g (FirstSets.compute g) kernel) x) :
    Drawn g (ofKernel g (FirstSets.compute g) kernel)
      (x.item (ofKernel g (FirstSets.compute g) kernel)) := by
  refine saturate_drawn hrange hown ?_ (fun n look hlook => absurd hlook (by simp)) ?_ ?_ x hx
  · intro x hx
    obtain ⟨item, hitem, rfl⟩ := List.mem_map.1 hx
    exact ⟨trivial, hkernel item hitem⟩
  · intro x hx
    cases x with
    | kernel item => exact Or.inl (List.mem_map_of_mem hx)
    | added n p => exact absurd hx.2 (by simp)
  · simp only [List.length_map, steps, spent, lookOf_nil, Option.elim]
    omega

end Closure

end ShiftReduce
