import Mathlib.Data.List.Forall2
import ShiftReduce.Proofs.Lalr.Kernel

/-!
# Merging kernels

Two kernels with the same cores are merged by uniting their lookaheads. `Covers new old` says that
the kernel `new` has the items of `old` with at least their lookaheads, and `weight` counts the
lookaheads of a kernel, so that a kernel that has grown weighs more.

`Genuine` is what holds of every kernel that is ever stored: its cores are those of the canonical
collection, and each of its lookaheads is seen after some symbols that lead to these cores. The
first kernel is genuine, merging keeps it, and so does moving on from a closed state.
-/

namespace ShiftReduce

theorem exists_of_forall₂ {α β : Type} {R : α → β → Prop} {as : List α} {bs : List β}
    (h : List.Forall₂ R as bs) {b : β} (hb : b ∈ bs) : ∃ a ∈ as, R a b := by
  induction h with
  | nil => exact absurd hb List.not_mem_nil
  | cons hab _ ih =>
    rcases List.mem_cons.1 hb with rfl | hb
    · exact ⟨_, List.mem_cons_self, hab⟩
    · obtain ⟨a, ha, hab⟩ := ih hb
      exact ⟨a, List.mem_cons_of_mem _ ha, hab⟩

namespace Collection

variable {g : Grammar}

/-- The kernel `new` has the items of `old`, with at least their lookaheads. -/
def Covers (new old : List Item) : Prop :=
  List.Forall₂ (fun a b => a.core = b.core ∧ ∀ t ∈ b.look, t ∈ a.look) new old

namespace Covers

theorem refl (kernel : List Item) : Covers kernel kernel :=
  List.forall₂_same.2 fun _ _ => ⟨rfl, fun _ ht => ht⟩

theorem trans {as bs cs : List Item} (h₁ : Covers as bs) (h₂ : Covers bs cs) : Covers as cs := by
  induction h₁ generalizing cs with
  | nil => exact h₂
  | cons hab _ ih =>
    cases h₂ with
    | cons hbc htail =>
      exact .cons ⟨hab.1.trans hbc.1, fun t ht => hab.2 t (hbc.2 t ht)⟩ (ih htail)

theorem cores {as bs : List Item} (h : Covers as bs) : as.map Item.core = bs.map Item.core := by
  induction h with
  | nil => rfl
  | cons hab _ ih => rw [List.map_cons, List.map_cons, hab.1, ih]

theorem coreSet {as bs : List Item} (h : Covers as bs) : coreSet as = coreSet bs := by
  rw [ShiftReduce.coreSet, ShiftReduce.coreSet, h.cores]

/-- Each item of the covered kernel is in the covering one, with at least its lookaheads. -/
theorem exists_mem {as bs : List Item} (h : Covers as bs) {b : Item} (hb : b ∈ bs) :
    ∃ a ∈ as, a.core = b.core ∧ ∀ t ∈ b.look, t ∈ a.look := exists_of_forall₂ h hb

end Covers

/-! ### Merging -/

theorem covers_mergeKernel {old new : List Item} (h : old.map Item.core = new.map Item.core) :
    Covers (mergeKernel old new) old ∧ Covers (mergeKernel old new) new := by
  induction old generalizing new with
  | nil =>
    rw [List.map_nil, eq_comm, List.map_eq_nil_iff] at h
    subst h
    exact ⟨.nil, .nil⟩
  | cons a old ih =>
    cases new with
    | nil => exact absurd h (by simp)
    | cons b new =>
      rw [List.map_cons, List.map_cons, List.cons.injEq] at h
      obtain ⟨hold, hnew⟩ := ih h.2
      exact ⟨.cons ⟨rfl, fun t ht => IdSet.mem_union.2 (Or.inl ht)⟩ hold,
        .cons ⟨h.1, fun t ht => IdSet.mem_union.2 (Or.inr ht)⟩ hnew⟩

/-- A lookahead of the merged kernel is one of either kernel. -/
theorem mem_mergeKernel {old new : List Item} (h : old.map Item.core = new.map Item.core)
    {a : Item} (ha : a ∈ mergeKernel old new) {t : Nat} (ht : t ∈ a.look) :
    (∃ b ∈ old, b.core = a.core ∧ t ∈ b.look) ∨ ∃ b ∈ new, b.core = a.core ∧ t ∈ b.look := by
  induction old generalizing new with
  | nil => exact absurd ha (by simp [mergeKernel])
  | cons b old ih =>
    cases new with
    | nil => exact absurd h (by simp)
    | cons c new =>
      rw [List.map_cons, List.map_cons, List.cons.injEq] at h
      rw [mergeKernel, List.zipWith_cons_cons, List.mem_cons] at ha
      rcases ha with rfl | ha
      · rcases IdSet.mem_union.1 ht with ht | ht
        · exact Or.inl ⟨b, List.mem_cons_self, rfl, ht⟩
        · exact Or.inr ⟨c, List.mem_cons_self, h.1.symm, ht⟩
      · rcases ih h.2 ha with ⟨d, hd, hcore⟩ | ⟨d, hd, hcore⟩
        · exact Or.inl ⟨d, List.mem_cons_of_mem _ hd, hcore⟩
        · exact Or.inr ⟨d, List.mem_cons_of_mem _ hd, hcore⟩

/-- The number of lookaheads of a kernel. -/
def weight (kernel : List Item) : Nat := (kernel.map fun item => item.look.card).sum

/-- A kernel that has grown weighs more. -/
theorem Covers.eq_or_weight_lt {new old : List Item} (h : Covers new old) :
    new = old ∨ weight old < weight new := by
  induction h with
  | nil => exact Or.inl rfl
  | @cons a b new old hab _ ih =>
    have hle : b.look.card ≤ a.look.card := IdSet.card_le_card hab.2
    have hcons : ∀ (item : Item) (items : List Item),
        weight (item :: items) = item.look.card + weight items := fun _ _ => List.sum_cons
    rw [hcons, hcons]
    by_cases hlook : b.look = a.look
    · rcases ih with rfl | ih
      · left
        cases a
        cases b
        simp_all
      · right
        omega
    · right
      have hlt := IdSet.card_lt_card hab.2 hlook
      have : weight old ≤ weight new := by
        rcases ih with rfl | ih
        · exact Nat.le_refl _
        · exact Nat.le_of_lt ih
      omega

/-! ### Genuine kernels -/

/-- What holds of every kernel that is stored. -/
structure Genuine (g : Grammar) (kernel : List Item) : Prop extends State.KernelFit g kernel where
  ne_nil : kernel ≠ []
  inside : ∀ item ∈ kernel,
    item.core.prod < g.prods.size ∧ item.core.dot ≤ (g.rhs item.core.prod).length
  reached : ∃ γ, Canonical.kernelAfter g γ = coreSet kernel
  seen : ∀ item ∈ kernel, ∀ t ∈ item.look,
    ∃ γ, Canonical.kernelAfter g γ = coreSet kernel ∧ Canonical.Sees g γ item.core t

/-- The first kernel, `S' -> . S $end`. -/
def firstKernel (g : Grammar) : List Item := [⟨⟨g.acceptProd, 0⟩, IdSet.single g.eof⟩]

theorem coreSet_firstKernel (g : Grammar) : coreSet (firstKernel g) = Canonical.start g := by
  ext c
  simp [coreSet, firstKernel, Canonical.start]

theorem genuine_firstKernel (hg : g.IsAugmented) : Genuine g (firstKernel g) where
  ascending := List.pairwise_singleton _ _
  below item hitem t ht := by
    rw [List.mem_singleton.1 hitem, IdSet.mem_single] at ht
    rw [ht]
    exact hg.eof_lt
  dot_pos item hitem _ := by rw [List.mem_singleton.1 hitem]
  ne_nil := List.cons_ne_nil _ _
  inside item hitem := by
    rw [List.mem_singleton.1 hitem]
    exact ⟨hg.acceptProd_lt, Nat.zero_le _⟩
  reached := ⟨[], (coreSet_firstKernel g).symm⟩
  seen item hitem t ht := by
    rw [List.mem_singleton.1 hitem] at ht ⊢
    rw [IdSet.mem_single] at ht
    subst ht
    exact ⟨[], (coreSet_firstKernel g).symm, .start⟩

/-- Merging keeps kernels genuine. -/
theorem Genuine.merge {old new : List Item} (hold : Genuine g old) (hnew : Genuine g new)
    (h : old.map Item.core = new.map Item.core) : Genuine g (mergeKernel old new) := by
  obtain ⟨hcold, hcnew⟩ := covers_mergeKernel h
  -- a property of cores holds of the merged items because it holds of the old ones
  have hcores : ∀ item ∈ mergeKernel old new, ∃ b ∈ old, b.core = item.core := by
    intro item hitem
    have := core_mem_coreSet hitem
    rw [hcold.coreSet] at this
    exact mem_coreSet.1 this
  refine
    { ascending := ?_, below := ?_, dot_pos := ?_, ne_nil := ?_, inside := ?_, reached := ?_,
      seen := ?_ }
  · rw [Ascending, hcold.cores]
    exact hold.ascending
  · intro item hitem t ht
    rcases mem_mergeKernel h hitem ht with ⟨b, hb, -, ht⟩ | ⟨b, hb, -, ht⟩
    · exact hold.below b hb t ht
    · exact hnew.below b hb t ht
  · intro item hitem
    obtain ⟨b, hb, hcore⟩ := hcores item hitem
    rw [← hcore]
    exact hold.dot_pos b hb
  · intro hnil
    have := hcold.cores
    rw [hnil, List.map_nil, eq_comm, List.map_eq_nil_iff] at this
    exact hold.ne_nil this
  · intro item hitem
    obtain ⟨b, hb, hcore⟩ := hcores item hitem
    rw [← hcore]
    exact hold.inside b hb
  · rw [hcold.coreSet]
    exact hold.reached
  · intro item hitem t ht
    rcases mem_mergeKernel h hitem ht with ⟨b, hb, hcore, ht⟩ | ⟨b, hb, hcore, ht⟩
    · rw [hcold.coreSet, ← hcore]
      exact hold.seen b hb t ht
    · rw [hcnew.coreSet, ← hcore]
      exact hnew.seen b hb t ht

/-- The lookaheads of all items of a closed state are seen after symbols that lead to it. -/
theorem Genuine.seen_items (hrange : g.InRange) {s : State} (hs : s.Closed g)
    (hkernel : Genuine g s.kernel) {item : Item} (hitem : item ∈ s.items g) {t : Nat}
    (ht : t ∈ item.look) :
    ∃ γ, Canonical.kernelAfter g γ = coreSet s.kernel ∧ Canonical.Sees g γ item.core t := by
  obtain ⟨γ, hγ⟩ := hkernel.reached
  have hWV : Closure.HandedOn g (Canonical.Closure g (coreSet s.kernel)) fun c t =>
      ∃ γ, Canonical.kernelAfter g γ = coreSet s.kernel ∧ Canonical.Sees g γ c t :=
    { core := fun hc hrest hp => .expand hc (Canonical.next?_of_rest hrest) hp
      begins := fun hc hrest hp ht => ⟨γ, hγ, .begins (by rwa [hγ]) hrest hp ht⟩
      vanishes := by
        rintro c n rest p t ⟨δ, hδ, hsees⟩ hrest hp hvanish
        exact ⟨δ, hδ, .vanishes hsees hrest hp hvanish⟩ }
  refine (State.fits_items hrange hWV hs ?_ item hitem).2 t ht
  intro item hitem
  exact ⟨.kernel (core_mem_coreSet hitem), hkernel.seen item hitem⟩

/-- The items of a closed state have existing cores and lookaheads. -/
theorem Genuine.inside_items (hrange : g.InRange) (hown : g.ListsOwn) {s : State}
    (hs : s.Closed g) (hkernel : Genuine g s.kernel) {item : Item} (hitem : item ∈ s.items g) :
    item.core.prod < g.prods.size ∧ item.look.Below g.terminals.size := by
  have hlt := Closure.handedOn_lt hrange
  have hWV : Closure.HandedOn g (fun c => c.prod < g.prods.size)
      fun _ t => t < g.terminals.size :=
    { core := fun _ _ hp => hown.lt_of_mem_prodsOf _ _ hp
      begins := fun _ => hlt.begins trivial
      vanishes := hlt.vanishes }
  refine State.fits_items hrange hWV hs ?_ item hitem
  intro item hitem
  exact ⟨(hkernel.inside item hitem).1, hkernel.below item hitem⟩

/-- A genuine kernel leads to genuine kernels. -/
theorem Genuine.advance (hg : g.IsAugmented) {s : State} (hs : s.Closed g)
    (hkernel : Genuine g s.kernel) {x : Symbol} (hne : advance g (s.items g) x ≠ []) :
    Genuine g (advance g (s.items g) x) := by
  have hrange := hg.toInRange
  have hcores := coreSet_advance hrange hg.toListsOwn hs hkernel.toKernelFit x
  refine
    { ascending := ascending_advance (State.nodup_cores_items hg hs hkernel.toKernelFit) x,
      below := ?_, dot_pos := ?_, ne_nil := hne, inside := ?_, reached := ?_, seen := ?_ }
  · intro item hitem
    obtain ⟨i, hi, -, -, rfl⟩ := mem_advance.1 hitem
    exact (hkernel.inside_items hrange hg.toListsOwn hs hi).2
  · intro item hitem hdot
    obtain ⟨i, -, -, -, rfl⟩ := mem_advance.1 hitem
    exact absurd hdot (Nat.succ_ne_zero _)
  · intro item hitem
    obtain ⟨i, hi, hnext, -, rfl⟩ := mem_advance.1 hitem
    exact ⟨(hkernel.inside_items hrange hg.toListsOwn hs hi).1, Canonical.dot_lt_of_next? hnext⟩
  · obtain ⟨γ, hγ⟩ := hkernel.reached
    refine ⟨γ ++ [x], ?_⟩
    rw [Canonical.kernelAfter_append_singleton, hγ, hcores]
  · intro item hitem t ht
    obtain ⟨i, hi, hnext, haccepts, rfl⟩ := mem_advance.1 hitem
    obtain ⟨γ, hγ, hsees⟩ := hkernel.seen_items hrange hs hi ht
    refine ⟨γ ++ [x], ?_, .goto hsees hnext haccepts⟩
    rw [Canonical.kernelAfter_append_singleton, hγ, hcores]

end Collection

end ShiftReduce
