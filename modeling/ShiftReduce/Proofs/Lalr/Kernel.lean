import Mathlib.Data.List.Sort
import ShiftReduce.Proofs.Lalr.Canonical
import ShiftReduce.Proofs.Lalr.Closure

/-!
# Kernels and the items of a state

A kernel is a list of items in strictly ascending order of their cores (`Ascending`), so two kernels
with the same set of cores have the same list of cores (`cores_eq_of_coreSet_eq`). A state whose
blocks are the closure of its kernel is called closed (`State.Closed`). Its items are described by
`coreSet_items`, `mem_items_of_rest` and `fits_items`, and the kernels that they lead to by
`coreSet_advance`: as sets of cores they are the closure and the move of the canonical collection.
-/

namespace ShiftReduce

/-- The strict order of cores: by production, then by the position of the dot. -/
def Core.Lt (a b : Core) : Prop := a.prod < b.prod ∨ a.prod = b.prod ∧ a.dot < b.dot

namespace Core

instance : Std.Irrefl Core.Lt where
  irrefl a h := by
    unfold Core.Lt at h
    omega

instance : Std.Antisymm Core.Lt where
  antisymm a b h₁ h₂ := by
    unfold Core.Lt at h₁ h₂
    omega

theorem Lt.trans {a b c : Core} (h₁ : Lt a b) (h₂ : Lt b c) : Lt a c := by
  unfold Lt at h₁ h₂ ⊢
  omega

theorem lt_of_le_of_ne {a b : Core} (h : a.le b = true) (hne : a ≠ b) : Lt a b := by
  cases a
  cases b
  simp only [le, Bool.or_eq_true, Bool.and_eq_true, decide_eq_true_eq, beq_iff_eq] at h
  simp only [ne_eq, Core.mk.injEq] at hne
  simp only [Lt]
  omega

theorem lt_of_not_le {a b : Core} (h : a.le b ≠ true) : Lt b a := by
  simp only [le, ne_eq, Bool.or_eq_true, Bool.and_eq_true, decide_eq_true_eq, beq_iff_eq] at h
  simp only [Lt]
  omega

end Core

/-! ### Lists of items in order -/

/-- The items are in strictly ascending order of their cores. -/
def Ascending (items : List Item) : Prop := (items.map Item.core).Pairwise Core.Lt

/-- The cores of some items. -/
def coreSet (items : List Item) : Set Core := {c | c ∈ items.map Item.core}

theorem mem_coreSet {items : List Item} {c : Core} :
    c ∈ coreSet items ↔ ∃ item ∈ items, item.core = c := List.mem_map

theorem core_mem_coreSet {items : List Item} {item : Item} (h : item ∈ items) :
    item.core ∈ coreSet items := List.mem_map_of_mem h

/-- A kernel is known by the set of its cores. -/
theorem cores_eq_of_coreSet_eq {as bs : List Item} (has : Ascending as) (hbs : Ascending bs)
    (h : coreSet as = coreSet bs) : as.map Item.core = bs.map Item.core :=
  List.Pairwise.eq_of_mem_iff has hbs fun c => Set.ext_iff.1 h c

theorem mem_insertItem {x item : Item} {items : List Item} :
    x ∈ insertItem item items ↔ x = item ∨ x ∈ items := by
  induction items with
  | nil => simp [insertItem]
  | cons other items ih =>
    rw [insertItem]
    split
    · exact List.mem_cons
    · rw [List.mem_cons, ih, List.mem_cons]
      exact or_left_comm

@[simp] theorem mem_sortItems {x : Item} {items : List Item} :
    x ∈ sortItems items ↔ x ∈ items := by
  induction items with
  | nil => simp [sortItems]
  | cons item items ih =>
    rw [sortItems, List.foldr_cons, mem_insertItem, List.mem_cons]
    exact or_congr_right ih

theorem ascending_insertItem {item : Item} {items : List Item} (h : Ascending items)
    (hitem : item.core ∉ items.map Item.core) : Ascending (insertItem item items) := by
  induction items with
  | nil => exact List.pairwise_singleton _ _
  | cons other items ih =>
    obtain ⟨hother, hitems⟩ := List.pairwise_cons.1 h
    rw [List.map_cons, List.mem_cons, not_or] at hitem
    rw [insertItem]
    split
    · next hle =>
      have hlt := Core.lt_of_le_of_ne hle hitem.1
      refine List.pairwise_cons.2 ⟨?_, h⟩
      intro c hc
      rcases List.mem_cons.1 hc with rfl | hc
      · exact hlt
      · exact hlt.trans (hother c hc)
    · next hle =>
      refine List.pairwise_cons.2 ⟨?_, ih hitems hitem.2⟩
      intro c hc
      obtain ⟨x, hx, rfl⟩ := List.mem_map.1 hc
      rcases mem_insertItem.1 hx with rfl | hx
      · exact Core.lt_of_not_le hle
      · exact hother _ (List.mem_map_of_mem hx)

/-- Items with different cores are in strictly ascending order after sorting. -/
theorem ascending_sortItems {items : List Item} (h : (items.map Item.core).Nodup) :
    Ascending (sortItems items) := by
  induction items with
  | nil => exact List.Pairwise.nil
  | cons item items ih =>
    obtain ⟨hitem, hitems⟩ := List.nodup_cons.1 h
    refine ascending_insertItem (ih hitems) fun hmem => hitem ?_
    obtain ⟨x, hx, hcore⟩ := List.mem_map.1 hmem
    exact List.mem_map.2 ⟨x, mem_sortItems.1 hx, hcore⟩

theorem Ascending.nodup {items : List Item} (h : Ascending items) :
    (items.map Item.core).Nodup := List.Pairwise.nodup h

/-! ### The items of a closed state -/

namespace Closure

variable {g : Grammar}

/-- Only nonterminals that stand in a production get a block. -/
theorem mentioned_expand {blocks : List Block}
    (hblocks : ∀ n ∈ blocks.map Block.nt, ∃ p, .nonterminal n ∈ g.rhs p) (item : Item) :
    ∀ n ∈ (expand g (FirstSets.compute g) blocks item).1.map Block.nt,
      ∃ p, .nonterminal n ∈ g.rhs p := by
  by_cases h : ∃ n rest, item.core.rest g = .nonterminal n :: rest
  · obtain ⟨n, rest, h⟩ := h
    rcases expand_cases blocks h with ⟨-, heq⟩ | ⟨old, -, ⟨-, heq⟩ | ⟨-, heq⟩⟩
    · intro m hm
      rw [heq, List.map_append, List.map_singleton, List.mem_append, List.mem_singleton] at hm
      rcases hm with hm | rfl
      · exact hblocks m hm
      · exact ⟨item.core.prod, Canonical.mem_rhs_of_next? (Canonical.next?_of_rest h)⟩
    · rw [heq]
      exact hblocks
    · rw [heq, Block.map_nt_grow]
      exact hblocks
  · rw [expand_of_rest fun n rest heq => h ⟨n, rest, heq⟩]
    exact hblocks

theorem mentioned_ofKernel (kernel : List Item) :
    ∀ n ∈ (ofKernel g (FirstSets.compute g) kernel).map Block.nt, ∃ p, .nonterminal n ∈ g.rhs p := by
  have hrun : ∀ (fuel : Nat) (stack : List Pending) (blocks : List Block),
      (∀ n ∈ blocks.map Block.nt, ∃ p, .nonterminal n ∈ g.rhs p) →
      ∀ n ∈ (saturate g (FirstSets.compute g) fuel stack blocks).map Block.nt,
        ∃ p, .nonterminal n ∈ g.rhs p := by
    intro fuel
    induction fuel with
    | zero => exact fun _ _ h => h
    | succ fuel ih =>
      intro stack blocks h
      cases stack with
      | nil => exact h
      | cons x stack => exact ih _ _ (mentioned_expand h _)
  exact hrun _ _ _ (by simp)

end Closure

namespace State

variable {g : Grammar}

/-- The blocks of the state are the closure of its kernel. -/
def Closed (g : Grammar) (s : State) : Prop :=
  s.blocks = Closure.ofKernel g (FirstSets.compute g) s.kernel

/-- What is asked of a kernel: its items are in ascending order, their lookaheads exist, and the dot
is not in front unless it is the first kernel. -/
structure KernelFit (g : Grammar) (kernel : List Item) : Prop where
  ascending : Ascending kernel
  below : Closure.KernelBelow g kernel
  dot_pos : ∀ item ∈ kernel, item.core.dot = 0 → item.core.prod = g.acceptProd

theorem mem_items {s : State} (hs : s.Closed g) {item : Item} : item ∈ s.items g ↔
    item ∈ s.kernel ∨ ∃ n look p, Block.lookOf s.blocks n = some look ∧ p ∈ g.prodsOf n ∧
      item = ⟨⟨p, 0⟩, look⟩ := by
  have hnodup : (s.blocks.map Block.nt).Nodup := by
    rw [hs]
    exact Closure.nodup_ofKernel _
  rw [items, List.mem_append, List.mem_flatMap]
  refine or_congr_right ?_
  constructor
  · rintro ⟨b, hb, hitem⟩
    obtain ⟨p, hp, rfl⟩ := List.mem_map.1 hitem
    exact ⟨b.nt, b.look, p, (Block.mem_iff_lookOf hnodup).1 hb, hp, rfl⟩
  · rintro ⟨n, look, p, hlook, hp, rfl⟩
    exact ⟨⟨n, look⟩, (Block.mem_iff_lookOf hnodup).2 hlook, List.mem_map.2 ⟨p, hp, rfl⟩⟩

theorem mem_items_of_mem_kernel {s : State} {item : Item} (h : item ∈ s.kernel) :
    item ∈ s.items g := List.mem_append_left _ h

/-- An item hands on the terminals with which the rest can begin, and its own lookaheads if the rest
can vanish. -/
theorem mem_items_of_rest (hrange : g.InRange) (hown : g.ListsOwn) {s : State} (hs : s.Closed g)
    (hkernel : KernelFit g s.kernel) {item : Item} (hitem : item ∈ s.items g) {n p : Nat}
    {rest : List Symbol} (hrest : item.core.rest g = .nonterminal n :: rest)
    (hp : p ∈ g.prodsOf n) :
    ∃ look, ⟨⟨p, 0⟩, look⟩ ∈ s.items g ∧
      ∀ t, g.Begins t rest ∨ g.Vanishes rest ∧ t ∈ item.look → t ∈ look := by
  -- every item is one whose consequences have been drawn
  have hdrawn : Closure.Drawn g s.blocks item := by
    rw [hs]
    rcases (mem_items hs).1 hitem with hitem | ⟨m, look, q, hlook, hq, rfl⟩
    · exact Closure.ofKernel_saturated hrange hown hkernel.below (x := .kernel item) hitem
    · rw [hs] at hlook
      have := Closure.ofKernel_saturated hrange hown hkernel.below (x := .added m q)
        ⟨hq, look, hlook⟩
      rwa [Closure.Pending.item, hlook] at this
  obtain ⟨look, hlook, hsub⟩ := hdrawn n rest hrest
  refine ⟨look, (mem_items hs).2 (Or.inr ⟨n, look, p, hlook, hp, rfl⟩), ?_⟩
  intro t ht
  exact hsub t ((FirstSets.mem_ofSymbols_compute hrange).2 ht)

/-- What holds of the kernel and is handed on holds of all items. -/
theorem fits_items (hrange : g.InRange) {W : Core → Prop} {V : Core → Nat → Prop}
    (hWV : Closure.HandedOn g W V) {s : State} (hs : s.Closed g)
    (h : ∀ item ∈ s.kernel, Closure.Fits W V item) :
    ∀ item ∈ s.items g, Closure.Fits W V item := by
  intro item hitem
  rcases (mem_items hs).1 hitem with hitem | ⟨n, look, p, hlook, hp, rfl⟩
  · exact h item hitem
  · rw [hs] at hlook
    exact Closure.ofKernel_sound hrange hWV h n look hlook p hp

/-- The cores of a closed state are the closure of those of its kernel. -/
theorem coreSet_items (hrange : g.InRange) (hown : g.ListsOwn) {s : State} (hs : s.Closed g)
    (hkernel : KernelFit g s.kernel) (c : Core) :
    c ∈ coreSet (s.items g) ↔ Canonical.Closure g (coreSet s.kernel) c := by
  constructor
  · intro hc
    obtain ⟨item, hitem, rfl⟩ := mem_coreSet.1 hc
    have hWV : Closure.HandedOn g (Canonical.Closure g (coreSet s.kernel)) fun _ _ => True :=
      { core := fun hc hrest hp => .expand hc (Canonical.next?_of_rest hrest) hp
        begins := fun _ _ _ _ => trivial
        vanishes := fun _ _ _ _ => trivial }
    refine (fits_items hrange hWV hs ?_ item hitem).1
    intro item hitem
    exact ⟨.kernel (core_mem_coreSet hitem), fun _ _ => trivial⟩
  · intro h
    induction h with
    | kernel hc =>
      obtain ⟨item, hitem, rfl⟩ := mem_coreSet.1 hc
      exact core_mem_coreSet (mem_items_of_mem_kernel hitem)
    | expand _ hn hp ih =>
      obtain ⟨item, hitem, rfl⟩ := mem_coreSet.1 ih
      obtain ⟨look, hmem, -⟩ := mem_items_of_rest hrange hown hs hkernel hitem
        (Canonical.rest_of_next? hn) hp
      exact core_mem_coreSet hmem

/-- No two items of a closed state have the same core. -/
theorem nodup_cores_items (hg : g.IsAugmented) {s : State} (hs : s.Closed g)
    (hkernel : KernelFit g s.kernel) : ((s.items g).map Item.core).Nodup := by
  have hnts : (s.blocks.map Block.nt).Nodup := by
    rw [hs]
    exact Closure.nodup_ofKernel _
  have hblock : ∀ b : Block, (b.items g).map Item.core = (g.prodsOf b.nt).map (Core.mk · 0) := by
    intro b
    rw [Block.items, List.map_map]
    rfl
  rw [items, List.map_append, List.map_flatMap, List.nodup_append]
  refine ⟨hkernel.ascending.nodup, ?_, ?_⟩
  · -- the productions of different nonterminals are different
    rw [List.nodup_flatMap]
    constructor
    · intro b _
      rw [hblock]
      refine (hg.nodup_prodsOf b.nt).map ?_
      intro p q hpq
      exact (Core.mk.inj hpq).1
    · refine (List.pairwise_map.1 hnts).imp ?_
      intro a b hab
      simp only [Function.onFun, hblock]
      rw [List.disjoint_left]
      intro c ha hb
      obtain ⟨p, hp, rfl⟩ := List.mem_map.1 ha
      obtain ⟨q, hq, hqp⟩ := List.mem_map.1 hb
      rw [(Core.mk.inj hqp).1] at hq
      exact hab ((hg.lhs_of_mem_prodsOf _ p hp).symm.trans (hg.lhs_of_mem_prodsOf _ p hq))
  · -- an added item has the dot in front and is not the first item
    intro c hc d hd hcd
    subst hcd
    obtain ⟨item, hitem, rfl⟩ := List.mem_map.1 hc
    obtain ⟨b, hb, hd⟩ := List.mem_flatMap.1 hd
    rw [hblock] at hd
    obtain ⟨p, hp, hcore⟩ := List.mem_map.1 hd
    have hprod : p = g.acceptProd := by
      have := hkernel.dot_pos item hitem (by rw [← hcore])
      rwa [← hcore] at this
    have hlhs := hg.lhs_of_mem_prodsOf _ p hp
    obtain ⟨q, hq⟩ := Closure.mentioned_ofKernel (g := g) s.kernel b.nt (by
      rw [← hs]
      exact List.mem_map_of_mem hb)
    rw [← hlhs, hprod] at hq
    exact hg.fresh_start q hq

end State

/-! ### The kernels that a state leads to -/

namespace Collection

variable {g : Grammar}

theorem mem_advance {items : List Item} {x : Symbol} {item : Item} : item ∈ advance g items x ↔
    ∃ i ∈ items, i.core.next? g = some x ∧ accepts g i.core = false ∧
      item = ⟨⟨i.core.prod, i.core.dot + 1⟩, i.look⟩ := by
  rw [advance, mem_sortItems, List.mem_filterMap]
  refine exists_congr fun i => and_congr_right fun _ => ?_
  by_cases h : i.core.next? g = some x ∧ accepts g i.core = false
  · have hcond : i.core.next? g = some x ∧ (!accepts g i.core) = true := ⟨h.1, by simp [h.2]⟩
    rw [if_pos hcond, Option.some.injEq]
    exact ⟨fun heq => ⟨h.1, h.2, heq.symm⟩, fun heq => heq.2.2.symm⟩
  · have hcond : ¬ (i.core.next? g = some x ∧ (!accepts g i.core) = true) := by
      rintro ⟨h₁, h₂⟩
      exact h ⟨h₁, by simpa using h₂⟩
    rw [if_neg hcond]
    exact ⟨fun heq => absurd heq (by simp), fun heq => absurd ⟨heq.1, heq.2.1⟩ h⟩

/-- The kernel that a symbol leads to is the move of the canonical collection. -/
theorem coreSet_advance (hrange : g.InRange) (hown : g.ListsOwn) {s : State} (hs : s.Closed g)
    (hkernel : State.KernelFit g s.kernel) (x : Symbol) :
    coreSet (advance g (s.items g) x) = Canonical.goto g (coreSet s.kernel) x := by
  ext c
  rw [mem_coreSet]
  constructor
  · rintro ⟨item, hitem, rfl⟩
    obtain ⟨i, hi, hnext, haccepts, rfl⟩ := mem_advance.1 hitem
    have hclosure := (State.coreSet_items hrange hown hs hkernel _).1 (core_mem_coreSet hi)
    exact ⟨i.core, hclosure, hnext, haccepts, rfl⟩
  · rintro ⟨b, hb, hnext, haccepts, rfl⟩
    obtain ⟨i, hi, rfl⟩ := mem_coreSet.1 ((State.coreSet_items hrange hown hs hkernel _).2 hb)
    exact ⟨_, mem_advance.2 ⟨i, hi, hnext, haccepts, rfl⟩, rfl⟩

theorem ascending_advance {items : List Item} (h : (items.map Item.core).Nodup) (x : Symbol) :
    Ascending (advance g items x) := by
  refine ascending_sortItems ?_
  rw [List.map_filterMap]
  rw [List.Nodup, List.pairwise_filterMap]
  have hpair : items.Pairwise fun a b => a.core ≠ b.core := List.pairwise_map.1 h
  refine hpair.imp ?_
  intro a b hab c hc d hd hcd
  subst hcd
  apply hab
  simp only [Option.map_eq_some_iff, Option.ite_none_right_eq_some, Option.some.injEq] at hc hd
  obtain ⟨-, ⟨-, rfl⟩, rfl⟩ := hc
  obtain ⟨-, ⟨-, rfl⟩, hd⟩ := hd
  simp only [Core.mk.injEq, Nat.add_right_cancel_iff] at hd
  cases hcore : a.core
  cases hcore' : b.core
  rw [hcore, hcore'] at hd
  simp only at hd
  rw [hd.1, hd.2]

/-- The kernels that the items of a state lead to, one for each symbol that can be read over. -/
theorem mem_kernels (hrange : g.InRange) {items : List Item} {x : Symbol} {kernel : List Item} :
    (x, kernel) ∈ kernels g items ↔ kernel = advance g items x ∧ kernel ≠ [] := by
  have hsymbols : advance g items x ≠ [] → x ∈ symbols g := by
    intro h
    obtain ⟨item, hitem⟩ := List.exists_mem_of_ne_nil _ h
    obtain ⟨i, -, hnext, -⟩ := mem_advance.1 hitem
    have hx := Canonical.mem_rhs_of_next? hnext
    rw [symbols, List.mem_append]
    cases x with
    | nonterminal n =>
      exact Or.inl (List.mem_map_of_mem (List.mem_range.2 (hrange.nonterminal_lt _ n hx)))
    | terminal t =>
      exact Or.inr (List.mem_map_of_mem (List.mem_range.2 (hrange.terminal_lt _ t hx)))
  rw [kernels, List.mem_filter, List.mem_map]
  constructor
  · rintro ⟨⟨y, -, heq⟩, hne⟩
    obtain ⟨rfl, rfl⟩ := Prod.mk.inj heq
    refine ⟨rfl, ?_⟩
    intro hnil
    simp [hnil] at hne
  · rintro ⟨rfl, hne⟩
    exact ⟨⟨x, hsymbols hne, rfl⟩, by simpa using hne⟩

end Collection

end ShiftReduce
