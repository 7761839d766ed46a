import ShiftReduce.Proofs.Lalr.Merge

/-!
# The worklist of states

What the queue of states to work on keeps true while it is worked off. Storing a kernel never takes
anything away (`Grows`): a state keeps its place, and its kernel is covered by the later one. A state
whose kernel has changed, or that is new, is in the queue. So a state that is not in the queue is
`Settled`: its blocks are the closure of its kernel as it stands, and each of its moves leads to a
state that covers the kernel it was made for. When the queue is empty, every state is settled.

The queue does become empty (`queue_run`): whatever joins it is paid for by a state or by a lookahead
that was not there before (`load`), and of these there are only so many (`load_le`).
-/

namespace ShiftReduce

namespace Collection

variable {g : Grammar}

/-! ### Storing a kernel -/

/-- The queue after `i` has joined it, unless it waits there already. -/
def joined (queue : List Nat) (i : Nat) : List Nat := if i ∈ queue then queue else queue ++ [i]

theorem mem_joined {queue : List Nat} {i j : Nat} : j ∈ joined queue i ↔ j ∈ queue ∨ j = i := by
  rw [joined]
  split
  · next h =>
    refine ⟨Or.inl, ?_⟩
    rintro (hj | rfl)
    · exact hj
    · exact h
  · rw [List.mem_append, List.mem_singleton]

theorem length_joined_le (queue : List Nat) (i : Nat) :
    (joined queue i).length ≤ queue.length + 1 := by
  rw [joined]
  split
  · exact Nat.le_succ _
  · simp

/-- What storing a kernel does: it makes a state, or finds one that covers it, or adds to one. -/
theorem store_cases (c : Collection) (kernel : List Item) :
    ((∀ (i : Nat) (s : State), c.states[i]? = some s → s.cores ≠ kernel.map Item.core) ∧
      c.store kernel = (⟨c.states.push (State.ofKernel kernel), joined c.queue c.states.size⟩,
        c.states.size)) ∨
    ∃ (i : Nat) (s : State), c.states[i]? = some s ∧ s.cores = kernel.map Item.core ∧
      ((mergeKernel s.kernel kernel = s.kernel ∧ c.store kernel = (c, i)) ∨
      (mergeKernel s.kernel kernel ≠ s.kernel ∧ c.store kernel =
        (⟨c.states.modify i fun s' => { s' with kernel := mergeKernel s.kernel kernel },
          joined c.queue i⟩, i))) := by
  unfold store
  cases hfind : c.states.findIdx? fun s => s.cores == kernel.map Item.core with
  | none =>
    refine Or.inl ⟨?_, rfl⟩
    intro i s hs heq
    have := Array.findIdx?_eq_none_iff.1 hfind s (Array.mem_of_getElem? hs)
    simp [heq] at this
  | some i =>
    obtain ⟨hi, hcores, -⟩ := Array.findIdx?_eq_some_iff_getElem.1 hfind
    have hs := Array.getElem?_eq_getElem hi
    refine Or.inr ⟨i, c.states[i], hs, eq_of_beq hcores, ?_⟩
    simp only [hs, Option.map_some, Option.getD_some]
    by_cases hmerged : mergeKernel c.states[i].kernel kernel = c.states[i].kernel
    · exact Or.inl ⟨hmerged, if_pos hmerged⟩
    · exact Or.inr ⟨hmerged, if_neg hmerged⟩

/-- State `i` exists and covers the kernel. -/
def Holds (states : Array State) (i : Nat) (kernel : List Item) : Prop :=
  ∃ s : State, states[i]? = some s ∧ Covers s.kernel kernel

/-- What holds of the states at all times. -/
structure Kept (g : Grammar) (c : Collection) : Prop where
  genuine : ∀ {i : Nat} {s : State}, c.states[i]? = some s → Genuine g s.kernel
  distinct : ∀ {i j : Nat} {s s' : State}, c.states[i]? = some s → c.states[j]? = some s' →
    s.cores = s'.cores → i = j
  first : Holds c.states 0 (firstKernel g)
  queue_lt : ∀ i ∈ c.queue, i < c.states.size

/-- What has happened to the states from `c` to `c'`: nothing was taken away, and what is new or has
changed is in the queue. -/
structure Grows (c c' : Collection) : Prop where
  queue : ∀ i ∈ c.queue, i ∈ c'.queue
  state : ∀ {i : Nat} {s : State}, c.states[i]? = some s → ∃ s' : State,
    c'.states[i]? = some s' ∧ s'.blocks = s.blocks ∧ s'.moves = s.moves ∧
    Covers s'.kernel s.kernel ∧ (s' = s ∨ i ∈ c'.queue)
  new : ∀ {i : Nat} {s : State}, c'.states[i]? = some s → i < c.states.size ∨ i ∈ c'.queue

theorem Grows.refl (c : Collection) : Grows c c where
  queue _ hi := hi
  state hs := ⟨_, hs, rfl, rfl, Covers.refl _, Or.inl rfl⟩
  new hs := Or.inl (Array.getElem?_eq_some_iff.1 hs).1

theorem Grows.trans {c₁ c₂ c₃ : Collection} (h₁ : Grows c₁ c₂) (h₂ : Grows c₂ c₃) :
    Grows c₁ c₃ where
  queue i hi := h₂.queue i (h₁.queue i hi)
  state hs := by
    obtain ⟨s₂, hs₂, hblocks₂, hmoves₂, hcovers₂, hchange₂⟩ := h₁.state hs
    obtain ⟨s₃, hs₃, hblocks₃, hmoves₃, hcovers₃, hchange₃⟩ := h₂.state hs₂
    refine ⟨s₃, hs₃, hblocks₃.trans hblocks₂, hmoves₃.trans hmoves₂, hcovers₃.trans hcovers₂, ?_⟩
    rcases hchange₃ with rfl | hqueue
    · exact hchange₂.imp_right (h₂.queue _)
    · exact Or.inr hqueue
  new hs := by
    rcases h₂.new hs with hlt | hqueue
    · rcases h₁.new (Array.getElem?_eq_getElem hlt) with hlt | hqueue
      · exact Or.inl hlt
      · exact Or.inr (h₂.queue _ hqueue)
    · exact Or.inr hqueue

theorem Grows.holds {c c' : Collection} (h : Grows c c') {i : Nat} {kernel : List Item}
    (hi : Holds c.states i kernel) : Holds c'.states i kernel := by
  obtain ⟨s, hs, hcovers⟩ := hi
  obtain ⟨s', hs', -, -, hcovers', -⟩ := h.state hs
  exact ⟨s', hs', hcovers'.trans hcovers⟩

/-- A new state at the end of the collection. -/
theorem kept_push {c : Collection} (hc : Kept g c) {kernel : List Item} (hkernel : Genuine g kernel)
    (hnew : ∀ (i : Nat) (s : State), c.states[i]? = some s → s.cores ≠ kernel.map Item.core) :
    Kept g ⟨c.states.push (State.ofKernel kernel), joined c.queue c.states.size⟩ ∧
      Grows c ⟨c.states.push (State.ofKernel kernel), joined c.queue c.states.size⟩ := by
  have hgrows : Grows c ⟨c.states.push (State.ofKernel kernel), joined c.queue c.states.size⟩ :=
    { queue := fun i hi => mem_joined.2 (Or.inl hi)
      state := fun {i s} hs => by
        refine ⟨s, ?_, rfl, rfl, Covers.refl _, Or.inl rfl⟩
        rw [Array.getElem?_push, if_neg (Nat.ne_of_lt (Array.getElem?_eq_some_iff.1 hs).1), hs]
      new := fun {i s} hs => by
        rw [Array.getElem?_push] at hs
        split at hs
        · next hi => exact Or.inr (mem_joined.2 (Or.inr hi))
        · exact Or.inl (Array.getElem?_eq_some_iff.1 hs).1 }
  refine ⟨{ genuine := ?_, distinct := ?_, first := hgrows.holds hc.first, queue_lt := ?_ }, hgrows⟩
  · intro i s hs
    rw [Array.getElem?_push] at hs
    split at hs
    · rw [← Option.some.inj hs]
      exact hkernel
    · exact hc.genuine hs
  · intro i j s s' hs hs' hcores
    rw [Array.getElem?_push] at hs hs'
    split at hs <;> split at hs'
    · next hi hj => exact hi.trans hj.symm
    · rw [← Option.some.inj hs] at hcores
      exact absurd hcores.symm (hnew j s' hs')
    · rw [← Option.some.inj hs'] at hcores
      exact absurd hcores (hnew i s hs)
    · exact hc.distinct hs hs' hcores
  · intro i hi
    rw [Array.size_push]
    rcases mem_joined.1 hi with hi | rfl
    · exact Nat.lt_succ_of_lt (hc.queue_lt i hi)
    · exact Nat.lt_succ_self _

/-- A state whose lookaheads have grown. -/
theorem kept_modify {c : Collection} (hc : Kept g c) {i : Nat} {s : State}
    (hs : c.states[i]? = some s) {kernel : List Item} (hkernel : Genuine g kernel)
    (hcovers : Covers kernel s.kernel) :
    Kept g ⟨c.states.modify i fun s => { s with kernel := kernel }, joined c.queue i⟩ ∧
      Grows c ⟨c.states.modify i fun s => { s with kernel := kernel }, joined c.queue i⟩ := by
  have hget : ∀ j : Nat, (c.states.modify i fun s => { s with kernel := kernel })[j]? =
      if i = j then some { s with kernel := kernel } else c.states[j]? := by
    intro j
    rw [Array.getElem?_modify]
    split
    · next hij =>
      rw [← hij, hs]
      rfl
    · rfl
  have hgrows : Grows c ⟨c.states.modify i fun s => { s with kernel := kernel },
      joined c.queue i⟩ :=
    { queue := fun i hi => mem_joined.2 (Or.inl hi)
      state := fun {j s'} hs' => by
        simp only [hget]
        split
        · next hij =>
          subst hij
          rw [hs, Option.some.injEq] at hs'
          subst hs'
          exact ⟨_, rfl, rfl, rfl, hcovers, Or.inr (mem_joined.2 (Or.inr rfl))⟩
        · exact ⟨s', hs', rfl, rfl, Covers.refl _, Or.inl rfl⟩
      new := fun {j s'} hs' => by
        left
        have := (Array.getElem?_eq_some_iff.1 hs').1
        rwa [Array.size_modify] at this }
  -- a state has the same cores as before
  have hcores : ∀ {j : Nat} {s' : State},
      (c.states.modify i fun s => { s with kernel := kernel })[j]? = some s' →
      ∃ s₀ : State, c.states[j]? = some s₀ ∧ s'.cores = s₀.cores := by
    intro j s' hs'
    rw [hget] at hs'
    split at hs'
    · next hij =>
      rw [← Option.some.inj hs']
      exact ⟨s, hij ▸ hs, hcovers.cores⟩
    · exact ⟨s', hs', rfl⟩
  refine ⟨{ genuine := ?_, distinct := ?_, first := hgrows.holds hc.first, queue_lt := ?_ }, hgrows⟩
  · intro j s' hs'
    rw [hget] at hs'
    split at hs'
    · rw [← Option.some.inj hs']
      exact hkernel
    · exact hc.genuine hs'
  · intro j k s₁ s₂ hs₁ hs₂ heq
    obtain ⟨s₁', hs₁', heq₁⟩ := hcores hs₁
    obtain ⟨s₂', hs₂', heq₂⟩ := hcores hs₂
    exact hc.distinct hs₁' hs₂' (heq₁.symm.trans (heq.trans heq₂))
  · intro j hj
    rw [Array.size_modify]
    rcases mem_joined.1 hj with hj | rfl
    · exact hc.queue_lt j hj
    · exact (Array.getElem?_eq_some_iff.1 hs).1

/-- What storing a genuine kernel keeps, and that the kernel is held afterwards. -/
theorem store_kept {c : Collection} (hc : Kept g c) {kernel : List Item}
    (hkernel : Genuine g kernel) : Kept g (c.store kernel).1 ∧ Grows c (c.store kernel).1 ∧
      Holds (c.store kernel).1.states (c.store kernel).2 kernel := by
  rcases store_cases c kernel with ⟨hnew, heq⟩ | ⟨i, s, hs, hcores, ⟨hsame, heq⟩ | ⟨-, heq⟩⟩
  · rw [heq]
    obtain ⟨hkept, hgrows⟩ := kept_push hc hkernel hnew
    exact ⟨hkept, hgrows, State.ofKernel kernel, Array.getElem?_push_size, Covers.refl _⟩
  · rw [heq]
    have hcovers := (covers_mergeKernel hcores).2
    rw [hsame] at hcovers
    exact ⟨hc, Grows.refl c, s, hs, hcovers⟩
  · rw [heq]
    obtain ⟨hcold, hcnew⟩ := covers_mergeKernel hcores
    obtain ⟨hkept, hgrows⟩ := kept_modify hc hs ((hc.genuine hs).merge hkernel hcores) hcold
    refine ⟨hkept, hgrows, { s with kernel := mergeKernel s.kernel kernel }, ?_, hcnew⟩
    rw [Array.getElem?_modify, if_pos rfl, hs]
    rfl

/-! ### What is paid for -/

/-- What a state counts for: one, and one for each lookahead of its kernel. -/
def stateLoad (s : State) : Nat := weight s.kernel + 1

/-- What all states count for. -/
def load (c : Collection) : Nat := (c.states.toList.map stateLoad).sum

theorem sum_map_modify {α : Type} (w : α → Nat) (f : α → α) {l : List α} {i : Nat} {a : α}
    (h : l[i]? = some a) : ((l.modify i f).map w).sum + w a = (l.map w).sum + w (f a) := by
  induction l generalizing i with
  | nil => simp at h
  | cons b l ih =>
    cases i with
    | zero =>
      rw [List.getElem?_cons_zero, Option.some.injEq] at h
      subst h
      simp only [List.modify_zero_cons, List.map_cons, List.sum_cons]
      omega
    | succ i =>
      rw [List.getElem?_cons_succ] at h
      have := ih h
      simp only [List.modify_succ_cons, List.map_cons, List.sum_cons]
      omega

/-- Changing a state changes the load by what the state counts for. -/
theorem load_modify {states : Array State} (queue queue' : List Nat) {i : Nat} {s : State}
    (hs : states[i]? = some s) (f : State → State) :
    load ⟨states.modify i f, queue'⟩ + stateLoad s = load ⟨states, queue⟩ + stateLoad (f s) := by
  rw [load, load, Array.toList_modify]
  exact sum_map_modify stateLoad f (by rw [Array.getElem?_toList, hs])

/-- A state joins the queue only together with something that pays for it. -/
theorem store_load (c : Collection) (kernel : List Item) :
    (c.store kernel).1.queue.length + load c ≤ c.queue.length + load (c.store kernel).1 := by
  rcases store_cases c kernel with ⟨-, heq⟩ | ⟨i, s, hs, hcores, ⟨-, heq⟩ | ⟨hne, heq⟩⟩
  · rw [heq]
    have := length_joined_le c.queue c.states.size
    simp only [load, Array.toList_push, List.map_append, List.sum_append, List.map_singleton,
      List.sum_singleton, stateLoad]
    omega
  · rw [heq]
  · rw [heq]
    have hjoined := length_joined_le c.queue i
    have hmodify := load_modify c.queue (joined c.queue i) hs
      fun s' => { s' with kernel := mergeKernel s.kernel kernel }
    have hweight := ((covers_mergeKernel hcores).1.eq_or_weight_lt).resolve_left hne
    simp only [stateLoad] at hmodify
    have hload : load c = load ⟨c.states, c.queue⟩ := rfl
    simp only
    omega

/-! ### Working on a state -/

/-- The moves lead to states that cover the kernels they were made for. -/
def MovesTo (states : Array State) (moves : List (Symbol × Nat))
    (kernels : List (Symbol × List Item)) : Prop :=
  List.Forall₂ (fun m k => m.1 = k.1 ∧ Holds states m.2 k.2) moves kernels

/-- The closure and the moves of a state are up to date. -/
structure Settled (g : Grammar) (states : Array State) (s : State) : Prop where
  closed : s.Closed g
  moves : MovesTo states s.moves (kernels g (s.items g))

/-- What holds before and after working on a state. -/
structure Inv (g : Grammar) (c : Collection) : Prop extends Kept g c where
  settled : ∀ {i : Nat} {s : State}, c.states[i]? = some s → i ∉ c.queue → Settled g c.states s

/-- What storing the kernels of a state one after the other keeps. -/
theorem foldl_storeMove {c : Collection} (hc : Kept g c) {ks : List (Symbol × List Item)}
    (hks : ∀ k ∈ ks, Genuine g k.2) (moves : List (Symbol × Nat))
    (done : List (Symbol × List Item)) (hmoves : MovesTo c.states moves done) :
    Kept g (ks.foldl storeMove (c, moves)).1 ∧ Grows c (ks.foldl storeMove (c, moves)).1 ∧
      MovesTo (ks.foldl storeMove (c, moves)).1.states (ks.foldl storeMove (c, moves)).2
        (done ++ ks) ∧
      (ks.foldl storeMove (c, moves)).1.queue.length + load c ≤
        c.queue.length + load (ks.foldl storeMove (c, moves)).1 := by
  induction ks generalizing c moves done with
  | nil =>
    rw [List.append_nil]
    exact ⟨hc, Grows.refl c, hmoves, Nat.le_refl _⟩
  | cons k ks ih =>
    obtain ⟨hk, hks⟩ := List.forall_mem_cons.1 hks
    obtain ⟨hkept, hgrows, hholds⟩ := store_kept hc hk
    have hload := store_load c k.2
    have hmoves' : MovesTo (c.store k.2).1.states (moves ++ [(k.1, (c.store k.2).2)])
        (done ++ [k]) :=
      List.rel_append (hmoves.imp fun _ _ h => ⟨h.1, hgrows.holds h.2⟩)
        (.cons ⟨rfl, hholds⟩ .nil)
    obtain ⟨hkept', hgrows', hmoves'', hload'⟩ := ih hkept hks _ _ hmoves'
    rw [List.append_assoc] at hmoves''
    refine ⟨hkept', hgrows.trans hgrows', hmoves'', ?_⟩
    have hstep : storeMove (c, moves) k =
        ((c.store k.2).1, moves ++ [(k.1, (c.store k.2).2)]) := rfl
    rw [List.foldl_cons, hstep]
    omega

/-- A collection in which only blocks and moves of a state have changed. -/
theorem Kept.of_kernels {c c' : Collection} (hc : Kept g c) (hsize : c'.states.size = c.states.size)
    (hqueue : ∀ i ∈ c'.queue, i ∈ c.queue)
    (h : ∀ {i : Nat} {s' : State}, c'.states[i]? = some s' →
      ∃ s : State, c.states[i]? = some s ∧ s'.kernel = s.kernel) : Kept g c' where
  genuine hs' := by
    obtain ⟨s, hs, heq⟩ := h hs'
    rw [heq]
    exact hc.genuine hs
  distinct hs₁ hs₂ hcores := by
    obtain ⟨s₁', hs₁', heq₁⟩ := h hs₁
    obtain ⟨s₂', hs₂', heq₂⟩ := h hs₂
    rw [State.cores, State.cores, heq₁, heq₂] at hcores
    exact hc.distinct hs₁' hs₂' hcores
  first := by
    obtain ⟨s, hs, hcovers⟩ := hc.first
    have hlt : 0 < c'.states.size := hsize ▸ (Array.getElem?_eq_some_iff.1 hs).1
    obtain ⟨s₀, hs₀, heq⟩ := h (Array.getElem?_eq_getElem hlt)
    rw [hs, Option.some.injEq] at hs₀
    refine ⟨_, Array.getElem?_eq_getElem hlt, ?_⟩
    rw [heq, ← hs₀]
    exact hcovers
  queue_lt i hi := hsize ▸ hc.queue_lt i (hqueue i hi)

/-- A state after its closure has been made. -/
def closeState (g : Grammar) (s : State) : State :=
  { s with blocks := Closure.ofKernel g (FirstSets.compute g) s.kernel }

theorem closed_closeState (s : State) : (closeState g s).Closed g := rfl

/-- The collection after the closure of state `i` has been made. -/
def close (g : Grammar) (c : Collection) (i : Nat) (s : State) : Collection :=
  { c with states := c.states.setIfInBounds i (closeState g s) }

/-- The collection and the moves after the kernels that state `i` leads to have been stored. -/
def storeNext (g : Grammar) (c : Collection) (i : Nat) (s : State) :
    Collection × List (Symbol × Nat) :=
  (kernels g ((closeState g s).items g)).foldl storeMove (close g c i s, [])

/-- Notes the moves of state `i`. -/
def noteMoves (i : Nat) (acc : Collection × List (Symbol × Nat)) : Collection :=
  { acc.1 with states := acc.1.states.modify i fun s => { s with moves := acc.2 } }

/-- Working on a state is to make its closure, to store the kernels and to note the moves. -/
theorem process_eq {c : Collection} {i : Nat} {s : State} (hs : c.states[i]? = some s) :
    process g (FirstSets.compute g) c i = noteMoves i (storeNext g c i s) := by
  unfold process
  rw [hs]
  rfl

theorem getElem?_close {c : Collection} {i : Nat} {s : State} (hs : c.states[i]? = some s)
    (j : Nat) : (close g c i s).states[j]? =
      if i = j then some (closeState g s) else c.states[j]? := by
  rw [close, Array.getElem?_setIfInBounds, if_pos (Array.getElem?_eq_some_iff.1 hs).1]

theorem getElem?_noteMoves (i : Nat) (acc : Collection × List (Symbol × Nat)) (j : Nat) :
    (noteMoves i acc).states[j]? =
      if i = j then acc.1.states[j]?.map fun s => { s with moves := acc.2 }
      else acc.1.states[j]? := by
  rw [noteMoves, Array.getElem?_modify]

theorem load_close {c : Collection} {i : Nat} {s : State} (hs : c.states[i]? = some s) :
    load (close g c i s) = load c := by
  have hmodify : (close g c i s).states = c.states.modify i fun _ => closeState g s := by
    apply Array.ext_getElem?
    intro j
    rw [getElem?_close hs, Array.getElem?_modify]
    split
    · next hij =>
      rw [← hij, hs]
      rfl
    · rfl
  have hload := load_modify c.queue c.queue hs fun _ => closeState g s
  rw [← hmodify] at hload
  exact Nat.add_right_cancel hload

theorem load_noteMoves {i : Nat} {acc : Collection × List (Symbol × Nat)} {s : State}
    (hs : acc.1.states[i]? = some s) : load (noteMoves i acc) = load acc.1 :=
  Nat.add_right_cancel
    (load_modify acc.1.queue acc.1.queue hs fun s => { s with moves := acc.2 })

/-- Making the closure of a state and noting its moves takes nothing away from what is held. -/
theorem Holds.close {c : Collection} {i : Nat} {s : State} (hs : c.states[i]? = some s) {j : Nat}
    {kernel : List Item} (h : Holds c.states j kernel) :
    Holds (close g c i s).states j kernel := by
  obtain ⟨s', hs', hcovers⟩ := h
  rw [Holds, getElem?_close hs]
  split
  · next hij =>
    rw [← hij, hs, Option.some.injEq] at hs'
    exact ⟨_, rfl, hs' ▸ hcovers⟩
  · exact ⟨s', hs', hcovers⟩

theorem Holds.noteMoves {acc : Collection × List (Symbol × Nat)} (i : Nat) {j : Nat}
    {kernel : List Item} (h : Holds acc.1.states j kernel) :
    Holds (noteMoves i acc).states j kernel := by
  obtain ⟨s', hs', hcovers⟩ := h
  rw [Holds, getElem?_noteMoves, hs']
  split
  · exact ⟨_, rfl, hcovers⟩
  · exact ⟨s', rfl, hcovers⟩

theorem kept_close {c : Collection} (hc : Kept g c) {i : Nat} {s : State}
    (hs : c.states[i]? = some s) : Kept g (close g c i s) := by
  refine hc.of_kernels (by simp [close]) (fun j hj => hj) ?_
  intro j s' hs'
  rw [getElem?_close hs] at hs'
  split at hs'
  · next hij =>
    rw [← Option.some.inj hs']
    exact ⟨s, hij ▸ hs, rfl⟩
  · exact ⟨s', hs', rfl⟩

theorem kept_noteMoves {acc : Collection × List (Symbol × Nat)} (h : Kept g acc.1) (i : Nat) :
    Kept g (noteMoves i acc) := by
  refine h.of_kernels (by simp [noteMoves]) (fun j hj => hj) ?_
  intro j s' hs'
  rw [getElem?_noteMoves] at hs'
  split at hs'
  · obtain ⟨s₀, hs₀, rfl⟩ := Option.map_eq_some_iff.1 hs'
    exact ⟨s₀, hs₀, rfl⟩
  · exact ⟨s', hs', rfl⟩

theorem Kept.of_queue {c : Collection} (h : Kept g c) {queue : List Nat}
    (hqueue : ∀ i ∈ queue, i ∈ c.queue) : Kept g ⟨c.states, queue⟩ :=
  h.of_kernels rfl hqueue fun hs => ⟨_, hs, rfl⟩

/-- Working on the first state of the queue keeps the invariant, and what joins the queue is paid
for. -/
theorem inv_process (hg : g.IsAugmented) {states : Array State} {i : Nat} {queue : List Nat}
    (h : Inv g ⟨states, i :: queue⟩) :
    Inv g (process g (FirstSets.compute g) ⟨states, queue⟩ i) ∧
      (process g (FirstSets.compute g) ⟨states, queue⟩ i).queue.length + load ⟨states, queue⟩ ≤
        queue.length + load (process g (FirstSets.compute g) ⟨states, queue⟩ i) := by
  obtain ⟨s, hs⟩ : ∃ s, states[i]? = some s :=
    ⟨_, Array.getElem?_eq_getElem (h.queue_lt i List.mem_cons_self)⟩
  have hkept : Kept g ⟨states, queue⟩ := h.toKept.of_queue fun j hj => List.mem_cons_of_mem _ hj
  have hgenuine : ∀ k ∈ kernels g ((closeState g s).items g), Genuine g k.2 := by
    rintro ⟨x, kernel⟩ hk
    obtain ⟨rfl, hne⟩ := (mem_kernels hg.toInRange).1 hk
    exact (h.genuine hs).advance hg (closed_closeState s) hne
  obtain ⟨hkept', hgrows, hmoves, hload⟩ :=
    foldl_storeMove (kept_close hkept hs) hgenuine [] [] .nil
  rw [List.nil_append] at hmoves
  rw [load_close hs] at hload
  rw [process_eq hs]
  change Kept g (storeNext g ⟨states, queue⟩ i s).1 at hkept'
  change Grows _ (storeNext g ⟨states, queue⟩ i s).1 at hgrows
  change MovesTo (storeNext g ⟨states, queue⟩ i s).1.states
    (storeNext g ⟨states, queue⟩ i s).2 _ at hmoves
  change (storeNext g ⟨states, queue⟩ i s).1.queue.length + _ ≤
    _ + load (storeNext g ⟨states, queue⟩ i s).1 at hload
  generalize storeNext g ⟨states, queue⟩ i s = acc at hkept' hgrows hmoves hload ⊢
  obtain ⟨s₁, hs₁, -, -, -, hsame₁⟩ := hgrows.state (by rw [getElem?_close hs, if_pos rfl])
  refine ⟨{ toKept := kept_noteMoves hkept' i, settled := ?_ }, ?_⟩
  · intro j s' hs' hj
    rw [getElem?_noteMoves] at hs'
    split at hs'
    · -- the state worked on, whose kernel is still the one that the closure was made for
      next hij =>
      subst hij
      rw [hs₁, hsame₁.resolve_right hj, Option.map_some, Option.some.injEq] at hs'
      subst hs'
      exact ⟨closed_closeState s, hmoves.imp fun _ _ hm => ⟨hm.1, hm.2.noteMoves i⟩⟩
    · -- another state, which has not changed
      next hij =>
      have hlt := (hgrows.new hs').resolve_right hj
      obtain ⟨s₂, hs₂, -, -, -, hsame₂⟩ := hgrows.state (Array.getElem?_eq_getElem hlt)
      rw [hs', Option.some.injEq] at hs₂
      subst hs₂
      have hold := getElem?_close (g := g) (c := ⟨states, queue⟩) hs j
      rw [if_neg hij, Array.getElem?_eq_getElem hlt, ← hsame₂.resolve_right hj] at hold
      have hsettled := h.settled hold.symm (by
        rw [List.mem_cons, not_or]
        exact ⟨fun heq => hij heq.symm, fun hmem => hj (hgrows.queue j hmem)⟩)
      refine ⟨hsettled.closed, hsettled.moves.imp fun _ _ hm => ⟨hm.1, ?_⟩⟩
      exact (hgrows.holds (hm.2.close (c := ⟨states, queue⟩) hs)).noteMoves i
  · rw [load_noteMoves hs₁]
    exact hload

/-! ### The queue becomes empty -/

/-- All cores of a grammar. -/
def allCores (g : Grammar) : List Core :=
  (List.range g.prods.size).flatMap fun p =>
    (List.range ((g.rhs p).length + 1)).map (Core.mk p)

theorem length_allCores (g : Grammar) : (allCores g).length = coreCount g := by
  have hcount : coreCount g = (g.prods.toList.map fun p => p.symbols.length + 1).sum := by
    rw [coreCount, List.sum_eq_foldr, List.foldr_map]
  rw [allCores, List.length_flatMap, hcount]
  congr 1
  apply List.ext_getElem?
  intro p
  have hprods : g.prods.toList[p]? = g.prods[p]? := Array.getElem?_toList
  rw [List.getElem?_map, List.getElem?_map, hprods]
  by_cases hp : p < g.prods.size
  · rw [List.getElem?_range hp, Array.getElem?_eq_getElem hp]
    simp [Grammar.rhs_of_getElem? (Array.getElem?_eq_getElem hp)]
  · rw [Array.getElem?_eq_none (Nat.le_of_not_lt hp)]
    simp [hp]

theorem mem_allCores {c : Core} :
    c ∈ allCores g ↔ c.prod < g.prods.size ∧ c.dot ≤ (g.rhs c.prod).length := by
  rw [allCores, List.mem_flatMap]
  constructor
  · rintro ⟨p, hp, hc⟩
    obtain ⟨dot, hdot, rfl⟩ := List.mem_map.1 hc
    exact ⟨List.mem_range.1 hp, Nat.le_of_lt_succ (List.mem_range.1 hdot)⟩
  · rintro ⟨hprod, hdot⟩
    exact ⟨c.prod, List.mem_range.2 hprod,
      List.mem_map.2 ⟨c.dot, List.mem_range.2 (Nat.lt_succ_of_le hdot), rfl⟩⟩

/-- A genuine kernel has no more items than there are cores. -/
theorem Genuine.length_le {kernel : List Item} (h : Genuine g kernel) :
    kernel.length ≤ coreCount g := by
  rw [← length_allCores, ← List.length_map (f := Item.core)]
  refine (List.subperm_of_subset h.ascending.nodup ?_).length_le
  intro c hc
  obtain ⟨item, hitem, rfl⟩ := List.mem_map.1 hc
  exact mem_allCores.2 (h.inside item hitem)

theorem Genuine.weight_le {kernel : List Item} (h : Genuine g kernel) :
    weight kernel ≤ coreCount g * g.terminals.size := by
  have hbound : ∀ n ∈ kernel.map fun item => item.look.card, n ≤ g.terminals.size := by
    intro n hn
    obtain ⟨item, hitem, rfl⟩ := List.mem_map.1 hn
    exact IdSet.card_le_of_below (h.below item hitem)
  calc weight kernel ≤ kernel.length * g.terminals.size := by
        simpa [weight] using List.sum_le_card_nsmul _ _ hbound
    _ ≤ coreCount g * g.terminals.size := Nat.mul_le_mul_right _ h.length_le

/-- There are no more states than sets of cores. -/
theorem size_states_le {c : Collection} (h : Kept g c) : c.states.size ≤ 2 ^ coreCount g := by
  -- a state is known by the set of its cores
  have hinj : Set.InjOn (fun i : Nat => ((c.states[i]?.map State.cores).getD []).toFinset)
      ↑(Finset.range c.states.size) := by
    intro i hi j hj hij
    rw [Finset.mem_coe, Finset.mem_range] at hi hj
    have hsi := Array.getElem?_eq_getElem hi
    have hsj := Array.getElem?_eq_getElem hj
    simp only [hsi, hsj, Option.map_some, Option.getD_some] at hij
    refine h.distinct hsi hsj (cores_eq_of_coreSet_eq (h.genuine hsi).ascending
      (h.genuine hsj).ascending ?_)
    ext core
    have := Finset.ext_iff.1 hij core
    rwa [List.mem_toFinset, List.mem_toFinset] at this
  have hmaps : ∀ i ∈ Finset.range c.states.size,
      ((c.states[i]?.map State.cores).getD []).toFinset ∈ (allCores g).toFinset.powerset := by
    intro i hi
    have hs := Array.getElem?_eq_getElem (Finset.mem_range.1 hi)
    rw [hs, Option.map_some, Option.getD_some, Finset.mem_powerset]
    intro core hcore
    obtain ⟨item, hitem, rfl⟩ := List.mem_map.1 (List.mem_toFinset.1 hcore)
    exact List.mem_toFinset.2 (mem_allCores.2 ((h.genuine hs).inside item hitem))
  have hcard := Finset.card_le_card_of_injOn _ hmaps hinj
  rw [Finset.card_range, Finset.card_powerset] at hcard
  refine hcard.trans (Nat.pow_le_pow_right Nat.two_pos ?_)
  rw [← length_allCores]
  exact List.toFinset_card_le _

theorem load_le {c : Collection} (h : Kept g c) :
    load c ≤ 2 ^ coreCount g * (coreCount g * g.terminals.size + 1) := by
  have hbound : ∀ n ∈ c.states.toList.map stateLoad, n ≤ coreCount g * g.terminals.size + 1 := by
    intro n hn
    obtain ⟨s, hs, rfl⟩ := List.mem_map.1 hn
    obtain ⟨i, hi⟩ := List.mem_iff_getElem?.1 hs
    rw [Array.getElem?_toList] at hi
    exact Nat.succ_le_succ (h.genuine hi).weight_le
  calc load c ≤ c.states.size * (coreCount g * g.terminals.size + 1) := by
        simpa [load] using List.sum_le_card_nsmul _ _ hbound
    _ ≤ 2 ^ coreCount g * (coreCount g * g.terminals.size + 1) :=
        Nat.mul_le_mul_right _ (size_states_le h)

theorem inv_initial (hg : g.IsAugmented) : Inv g (initial g) := by
  have hget : ∀ {i : Nat} {s : State}, (initial g).states[i]? = some s →
      i = 0 ∧ s = State.ofKernel (firstKernel g) := by
    intro i s hs
    have hlt : i < 1 := (Array.getElem?_eq_some_iff.1 hs).1
    have hi : i = 0 := by omega
    subst hi
    exact ⟨rfl, (Option.some.inj hs).symm⟩
  refine { genuine := ?_, distinct := ?_, first := ⟨_, rfl, Covers.refl _⟩, queue_lt := ?_,
           settled := ?_ }
  · intro i s hs
    rw [(hget hs).2]
    exact genuine_firstKernel hg
  · intro i j s s' hs hs' _
    rw [(hget hs).1, (hget hs').1]
  · intro i hi
    rw [List.mem_singleton.1 hi]
    exact Nat.one_pos
  · intro i s hs hi
    rw [(hget hs).1] at hi
    exact absurd (List.mem_singleton_self 0) hi

/-- The invariant holds at the end, and nothing is left in the queue. -/
theorem inv_run (hg : g.IsAugmented) {fuel : Nat} {c : Collection} (h : Inv g c)
    (hfuel : c.queue.length + 2 ^ coreCount g * (coreCount g * g.terminals.size + 1) <
      fuel + load c) :
    Inv g (run g (FirstSets.compute g) fuel c) ∧
      (run g (FirstSets.compute g) fuel c).queue = [] := by
  induction fuel generalizing c with
  | zero =>
    have := load_le h.toKept
    omega
  | succ fuel ih =>
    obtain ⟨states, queue⟩ := c
    cases queue with
    | nil => exact ⟨h, rfl⟩
    | cons i queue =>
      obtain ⟨hinv, hload⟩ := inv_process hg h
      have hstep : run g (FirstSets.compute g) (fuel + 1) ⟨states, i :: queue⟩ =
          run g (FirstSets.compute g) fuel
            (process g (FirstSets.compute g) ⟨states, queue⟩ i) := rfl
      rw [hstep]
      refine ih hinv ?_
      have hsame : load ⟨states, i :: queue⟩ = load ⟨states, queue⟩ := rfl
      simp only [List.length_cons] at hfuel
      omega

/-- The run that makes the collection works off its queue. -/
theorem inv_ofGrammar (hg : g.IsAugmented) :
    Inv g (run g (FirstSets.compute g) (steps g) (initial g)) ∧
      (run g (FirstSets.compute g) (steps g) (initial g)).queue = [] := by
  refine inv_run hg (inv_initial hg) ?_
  have hload : load (initial g) = weight (firstKernel g) + 1 := rfl
  rw [hload, steps, Nat.one_shiftLeft]
  simp only [initial, List.length_singleton]
  omega

end Collection

end ShiftReduce
