import ShiftReduce.Proofs.Lalr.Worklist

/-!
# The finished automaton

When the queue has been worked off, all states are settled (`Collection.Finished`), and the states
can be described without the order in which they were made. `Collection.walk` follows the moves.
Symbols lead from the first state to the state whose cores are those of the canonical collection
after these symbols (`walk_eq_some_iff`), and the lookaheads of an item are the terminals that are
seen after some symbols that lead to its state (`mem_look_iff`).
-/

namespace ShiftReduce

namespace Collection

variable {g : Grammar} {states : Array State}

/-- A collection with nothing left to do. -/
structure Finished (g : Grammar) (states : Array State) : Prop where
  genuine : ∀ {i : Nat} {s : State}, states[i]? = some s → Genuine g s.kernel
  distinct : ∀ {i j : Nat} {s s' : State}, states[i]? = some s → states[j]? = some s' →
    s.cores = s'.cores → i = j
  first : Holds states 0 (firstKernel g)
  settled : ∀ {i : Nat} {s : State}, states[i]? = some s → Settled g states s

theorem finished_ofGrammar (hg : g.IsAugmented) : Finished g (ofGrammar g) := by
  obtain ⟨hinv, hqueue⟩ := inv_ofGrammar hg
  refine
    { genuine := hinv.genuine, distinct := hinv.distinct, first := hinv.first, settled := ?_ }
  intro i s hs
  refine hinv.settled hs ?_
  rw [hqueue]
  exact List.not_mem_nil

/-! ### Moves -/

/-- A move leads to a state that covers the kernel after the symbol. -/
theorem Finished.holds_of_move? (h : Finished g states) (hrange : g.InRange) {i j : Nat}
    {s : State} (hs : states[i]? = some s) {x : Symbol} (hmove : s.move? x = some j) :
    Holds states j (advance g (s.items g) x) := by
  obtain ⟨m, hfind, rfl⟩ := Option.map_eq_some_iff.1 hmove
  have hx : m.1 = x := by simpa using List.find?_some hfind
  obtain ⟨⟨y, kernel⟩, hk, hmk, hholds⟩ :=
    exists_of_forall₂ (h.settled hs).moves.flip (List.mem_of_find?_eq_some hfind)
  obtain ⟨rfl, -⟩ := (mem_kernels hrange).1 hk
  rw [← hx, hmk]
  exact hholds

/-- Where there is a kernel after the symbol, there is a move. -/
theorem Finished.exists_move? (h : Finished g states) (hrange : g.InRange) {i : Nat} {s : State}
    (hs : states[i]? = some s) {x : Symbol} (hne : advance g (s.items g) x ≠ []) :
    ∃ j, s.move? x = some j := by
  obtain ⟨m, hm, heq, -⟩ :=
    exists_of_forall₂ (h.settled hs).moves ((mem_kernels hrange).2 ⟨rfl, hne⟩)
  cases hfind : s.moves.find? fun m => m.1 == x with
  | none =>
    have := List.find?_eq_none.1 hfind m hm
    simp [heq] at this
  | some m' => exact ⟨m'.2, by rw [State.move?, hfind, Option.map_some]⟩

theorem Finished.coreSet_advance (h : Finished g states) (hg : g.IsAugmented) {i : Nat} {s : State}
    (hs : states[i]? = some s) (x : Symbol) :
    coreSet (advance g (s.items g) x) = Canonical.goto g (coreSet s.kernel) x :=
  Collection.coreSet_advance hg.toInRange hg.toListsOwn (h.settled hs).closed
    (h.genuine hs).toKernelFit x

theorem coreSet_nonempty {items : List Item} : (coreSet items).Nonempty ↔ items ≠ [] := by
  cases items with
  | nil => simp [coreSet]
  | cons item items =>
    exact ⟨fun _ => List.cons_ne_nil _ _, fun _ => ⟨_, core_mem_coreSet List.mem_cons_self⟩⟩

/-- A state is known by the set of its cores. -/
theorem Finished.eq_of_coreSet_eq (h : Finished g states) {i j : Nat} {s s' : State}
    (hs : states[i]? = some s) (hs' : states[j]? = some s')
    (heq : coreSet s.kernel = coreSet s'.kernel) : i = j :=
  h.distinct hs hs'
    (cores_eq_of_coreSet_eq (h.genuine hs).ascending (h.genuine hs').ascending heq)

/-- The moves of a state are those of the canonical collection. -/
theorem Finished.move?_eq_some_iff (h : Finished g states) (hg : g.IsAugmented) {i j : Nat}
    {s : State} (hs : states[i]? = some s) {x : Symbol} : s.move? x = some j ↔
      ∃ s' : State, states[j]? = some s' ∧
        coreSet s'.kernel = Canonical.goto g (coreSet s.kernel) x := by
  have hmove : ∀ {k : Nat}, s.move? x = some k → ∃ s' : State, states[k]? = some s' ∧
      coreSet s'.kernel = Canonical.goto g (coreSet s.kernel) x := by
    intro k hk
    obtain ⟨s', hs', hcovers⟩ := h.holds_of_move? hg.toInRange hs hk
    exact ⟨s', hs', hcovers.coreSet.trans (h.coreSet_advance hg hs x)⟩
  refine ⟨hmove, ?_⟩
  rintro ⟨s', hs', hcores⟩
  have hne : advance g (s.items g) x ≠ [] := by
    rw [← coreSet_nonempty, h.coreSet_advance hg hs, ← hcores, coreSet_nonempty]
    exact (h.genuine hs').ne_nil
  obtain ⟨k, hk⟩ := h.exists_move? hg.toInRange hs hne
  obtain ⟨s'', hs'', hcores'⟩ := hmove hk
  rw [hk, h.eq_of_coreSet_eq hs'' hs' (hcores'.trans hcores.symm)]

/-! ### Symbols that lead to a state -/

/-- The state after a symbol. -/
def step (states : Array State) (i : Nat) (x : Symbol) : Option Nat :=
  states[i]?.bind fun s => s.move? x

/-- The state that some symbols lead to from a state. -/
def walk (states : Array State) (i : Nat) (γ : List Symbol) : Option Nat :=
  γ.foldlM (step states) i

@[simp] theorem walk_nil (i : Nat) : walk states i [] = some i := rfl

theorem walk_append (i : Nat) (γ δ : List Symbol) :
    walk states i (γ ++ δ) = (walk states i γ).bind (walk states · δ) :=
  List.foldlM_append

theorem walk_append_singleton (i : Nat) (γ : List Symbol) (x : Symbol) :
    walk states i (γ ++ [x]) = (walk states i γ).bind (step states · x) := by
  rw [walk_append]
  congr 1
  funext j
  simp [walk]

/-- The state that symbols lead to has the cores of the canonical collection. -/
theorem Finished.coreSet_of_walk (h : Finished g states) (hg : g.IsAugmented) {γ : List Symbol}
    {i : Nat} (hwalk : walk states 0 γ = some i) :
    ∃ s : State, states[i]? = some s ∧ coreSet s.kernel = Canonical.kernelAfter g γ := by
  induction γ using List.reverseRecOn generalizing i with
  | nil =>
    obtain ⟨s, hs, hcovers⟩ := h.first
    rw [walk_nil, Option.some.injEq] at hwalk
    exact ⟨s, hwalk ▸ hs, hcovers.coreSet.trans (coreSet_firstKernel g)⟩
  | append_singleton γ x ih =>
    rw [walk_append_singleton] at hwalk
    obtain ⟨k, hk, hstep⟩ := Option.bind_eq_some_iff.1 hwalk
    obtain ⟨s, hs, hcores⟩ := ih hk
    rw [step, hs, Option.bind_some, h.move?_eq_some_iff hg hs, hcores] at hstep
    rw [Canonical.kernelAfter_append_singleton]
    exact hstep

/-- Symbols that can be read lead to a state. -/
theorem Finished.exists_walk (h : Finished g states) (hg : g.IsAugmented) {γ : List Symbol}
    (hγ : (Canonical.kernelAfter g γ).Nonempty) : ∃ i, walk states 0 γ = some i := by
  induction γ using List.reverseRecOn with
  | nil => exact ⟨0, rfl⟩
  | append_singleton γ x ih =>
    rw [Canonical.kernelAfter_append_singleton] at hγ
    obtain ⟨k, hk⟩ := ih (Canonical.nonempty_of_goto hγ)
    obtain ⟨s, hs, hcores⟩ := h.coreSet_of_walk hg hk
    rw [← hcores, ← h.coreSet_advance hg hs, coreSet_nonempty] at hγ
    obtain ⟨j, hj⟩ := h.exists_move? hg.toInRange hs hγ
    refine ⟨j, ?_⟩
    rw [walk_append_singleton, hk, Option.bind_some, step, hs, Option.bind_some, hj]

/-- Symbols lead from the first state to the state with the cores of the canonical collection. -/
theorem Finished.walk_eq_some_iff (h : Finished g states) (hg : g.IsAugmented) {γ : List Symbol}
    {i : Nat} : walk states 0 γ = some i ↔
      ∃ s : State, states[i]? = some s ∧ coreSet s.kernel = Canonical.kernelAfter g γ := by
  refine ⟨h.coreSet_of_walk hg, ?_⟩
  rintro ⟨s, hs, hcores⟩
  obtain ⟨k, hk⟩ := h.exists_walk hg (γ := γ)
    (hcores ▸ coreSet_nonempty.2 (h.genuine hs).ne_nil)
  obtain ⟨s', hs', hcores'⟩ := h.coreSet_of_walk hg hk
  rw [hk, h.eq_of_coreSet_eq hs' hs (hcores'.trans hcores.symm)]

/-- The cores of a state are the closure of those of its kernel. -/
theorem Finished.mem_coreSet_items (h : Finished g states) (hg : g.IsAugmented) {i : Nat}
    {s : State} (hs : states[i]? = some s) {c : Core} :
    c ∈ coreSet (s.items g) ↔ Canonical.Closure g (coreSet s.kernel) c :=
  State.coreSet_items hg.toInRange hg.toListsOwn (h.settled hs).closed
    (h.genuine hs).toKernelFit c

/-! ### Lookaheads -/

/-- What is seen after some symbols is a lookahead in the state that they lead to. -/
theorem Finished.exists_item (h : Finished g states) (hg : g.IsAugmented) {γ : List Symbol}
    {c : Core} {t : Nat} (hsees : Canonical.Sees g γ c t) {i : Nat}
    (hwalk : walk states 0 γ = some i) {s : State} (hs : states[i]? = some s) :
    ∃ item ∈ s.items g, item.core = c ∧ t ∈ item.look := by
  induction hsees generalizing i s with
  | start =>
    obtain ⟨s₀, hs₀, hcovers⟩ := h.first
    rw [walk_nil, Option.some.injEq] at hwalk
    subst hwalk
    rw [hs, Option.some.injEq] at hs₀
    subst hs₀
    obtain ⟨item, hitem, hcore, hlook⟩ := hcovers.exists_mem (b := ⟨⟨g.acceptProd, 0⟩, _⟩)
      List.mem_cons_self
    exact ⟨item, State.mem_items_of_mem_kernel hitem, hcore, hlook _ (by simp)⟩
  | @begins γ c t n p rest hc hrest hp ht =>
    obtain ⟨s', hs', hcores⟩ := h.coreSet_of_walk hg hwalk
    rw [hs, Option.some.injEq] at hs'
    subst hs'
    rw [← hcores, ← h.mem_coreSet_items hg hs, mem_coreSet] at hc
    obtain ⟨item, hitem, rfl⟩ := hc
    obtain ⟨look, hmem, hsub⟩ := State.mem_items_of_rest hg.toInRange hg.toListsOwn
      (h.settled hs).closed (h.genuine hs).toKernelFit hitem hrest hp
    exact ⟨_, hmem, rfl, hsub t (Or.inl ht)⟩
  | @vanishes γ c t n p rest _ hrest hp hvanish ih =>
    obtain ⟨item, hitem, rfl, ht⟩ := ih hwalk hs
    obtain ⟨look, hmem, hsub⟩ := State.mem_items_of_rest hg.toInRange hg.toListsOwn
      (h.settled hs).closed (h.genuine hs).toKernelFit hitem hrest hp
    exact ⟨_, hmem, rfl, hsub t (Or.inr ⟨hvanish, ht⟩)⟩
  | @goto γ c t x _ hx haccepts ih =>
    rw [walk_append_singleton] at hwalk
    obtain ⟨k, hk, hstep⟩ := Option.bind_eq_some_iff.1 hwalk
    obtain ⟨s₀, hs₀, hmove⟩ := Option.bind_eq_some_iff.1 hstep
    obtain ⟨item, hitem, rfl, ht⟩ := ih hk hs₀
    obtain ⟨s', hs', hcovers⟩ := h.holds_of_move? hg.toInRange hs₀ hmove
    rw [hs, Option.some.injEq] at hs'
    subst hs'
    obtain ⟨item', hitem', hcore', hlook'⟩ :=
      hcovers.exists_mem (mem_advance.2 ⟨item, hitem, hx, haccepts, rfl⟩)
    exact ⟨item', State.mem_items_of_mem_kernel hitem', hcore', hlook' t ht⟩

/-- No two items of a state have the same core. -/
theorem Finished.eq_of_core_eq (h : Finished g states) (hg : g.IsAugmented) {i : Nat} {s : State}
    (hs : states[i]? = some s) {a b : Item} (ha : a ∈ s.items g) (hb : b ∈ s.items g)
    (hab : a.core = b.core) : a = b :=
  List.inj_on_of_nodup_map (State.nodup_cores_items hg (h.settled hs).closed
    (h.genuine hs).toKernelFit) ha hb hab

/-- The lookaheads of an item are the terminals that are seen after some symbols that lead to its
state. -/
theorem Finished.mem_look_iff (h : Finished g states) (hg : g.IsAugmented) {i : Nat} {s : State}
    (hs : states[i]? = some s) {item : Item} (hitem : item ∈ s.items g) {t : Nat} :
    t ∈ item.look ↔ ∃ γ, walk states 0 γ = some i ∧ Canonical.Sees g γ item.core t := by
  constructor
  · intro ht
    obtain ⟨γ, hγ, hsees⟩ := (h.genuine hs).seen_items hg.toInRange (h.settled hs).closed hitem ht
    exact ⟨γ, (h.walk_eq_some_iff hg).2 ⟨s, hs, hγ.symm⟩, hsees⟩
  · rintro ⟨γ, hwalk, hsees⟩
    obtain ⟨item', hitem', hcore, ht⟩ := h.exists_item hg hsees hwalk hs
    rwa [← h.eq_of_core_eq hg hs hitem' hitem hcore]

end Collection

end ShiftReduce
