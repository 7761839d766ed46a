import ShiftReduce.Proofs.Lalr.Automaton

/-!
# The collection is the canonical one

The main statement about the states: the construction ends with an empty queue, the kernels and the
moves are those of the canonical LR(0) collection, and the lookaheads are exactly the terminals that
are seen after some symbols that lead to the state. Where every nonterminal that can be reached
derives the empty text or something that begins with a terminal, these are the lookaheads of the
valid LR(1) items. Elsewhere there can be more of them, as `stray_lookahead` shows.
-/

namespace ShiftReduce

namespace Collection

/-- The kernels, the moves and the items are those of the canonical LR(0) collection. -/
structure IsCanonical (g : Grammar) (states : Array State) : Prop where
  /-- No two states have the same kernel. -/
  distinct : ∀ (i j : Nat) (s s' : State), states[i]? = some s → states[j]? = some s' →
    coreSet s.kernel = coreSet s'.kernel → i = j
  /-- The kernels are the non-empty ones that some symbols lead to. -/
  kernels : ∀ kernel : Set Core, (∃ (i : Nat) (s : State), states[i]? = some s ∧
    coreSet s.kernel = kernel) ↔ kernel.Nonempty ∧ ∃ γ, Canonical.kernelAfter g γ = kernel
  /-- The first state is `S' -> . S $end`. -/
  first : ∃ s : State, states[0]? = some s ∧ coreSet s.kernel = Canonical.start g
  /-- A symbol leads to the state of its kernel, and nowhere if there is none. -/
  moves : ∀ (i : Nat) (s : State), states[i]? = some s → ∀ (x : Symbol) (j : Nat),
    s.move? x = some j ↔ ∃ s' : State, states[j]? = some s' ∧
      coreSet s'.kernel = Canonical.goto g (coreSet s.kernel) x
  /-- The items of a state are the closure of its kernel, each core once. -/
  items : ∀ (i : Nat) (s : State), states[i]? = some s → ((s.items g).map Item.core).Nodup ∧
    ∀ c, c ∈ (s.items g).map Item.core ↔ Canonical.Closure g (coreSet s.kernel) c

theorem Finished.isCanonical {g : Grammar} {states : Array State} (h : Finished g states)
    (hg : g.IsAugmented) : IsCanonical g states where
  distinct _ _ _ _ hs hs' heq := h.eq_of_coreSet_eq hs hs' heq
  kernels kernel := by
    constructor
    · rintro ⟨i, s, hs, rfl⟩
      exact ⟨coreSet_nonempty.2 (h.genuine hs).ne_nil, (h.genuine hs).reached⟩
    · rintro ⟨hne, γ, rfl⟩
      obtain ⟨i, hi⟩ := h.exists_walk hg hne
      obtain ⟨s, hs, hcores⟩ := h.coreSet_of_walk hg hi
      exact ⟨i, s, hs, hcores⟩
  first := h.coreSet_of_walk hg (walk_nil 0)
  moves _ _ hs _ _ := h.move?_eq_some_iff hg hs
  items _ _ hs := ⟨State.nodup_cores_items hg (h.settled hs).closed (h.genuine hs).toKernelFit,
    fun _ => h.mem_coreSet_items hg hs⟩

/-- The states of an augmented grammar: the queue is worked off, the states are those of the
canonical collection, and a terminal is a lookahead exactly if it is seen after some symbols that
lead to the state. All lookaheads of valid LR(1) items are among them, and in a grounded grammar
there are no others. -/
theorem ofGrammar_exact {g : Grammar} (hg : g.IsAugmented) :
    (run g (FirstSets.compute g) (steps g) (initial g)).queue = [] ∧
    IsCanonical g (ofGrammar g) ∧
    ∀ (i : Nat) (s : State), (ofGrammar g)[i]? = some s → ∀ item ∈ s.items g, ∀ t,
      (t ∈ item.look ↔
        ∃ γ, walk (ofGrammar g) 0 γ = some i ∧ Canonical.Sees g γ item.core t) ∧
      ((∃ γ, walk (ofGrammar g) 0 γ = some i ∧ Canonical.Valid g γ item.core t) →
        t ∈ item.look) ∧
      (Canonical.Grounded g → (t ∈ item.look ↔
        ∃ γ, walk (ofGrammar g) 0 γ = some i ∧ Canonical.Valid g γ item.core t)) := by
  have h := finished_ofGrammar hg
  refine ⟨(inv_ofGrammar hg).2, h.isCanonical hg, ?_⟩
  intro i s hs item hitem t
  have hne : ∀ {γ}, walk (ofGrammar g) 0 γ = some i → (Canonical.kernelAfter g γ).Nonempty := by
    intro γ hwalk
    obtain ⟨s', hs', hcores⟩ := h.coreSet_of_walk hg hwalk
    rw [← hcores]
    exact coreSet_nonempty.2 (h.genuine hs').ne_nil
  have hlook := h.mem_look_iff hg hs hitem (t := t)
  refine ⟨hlook, ?_, ?_⟩
  · rintro ⟨γ, hwalk, hvalid⟩
    exact hlook.2 ⟨γ, hwalk, hvalid.sees hg (hne hwalk)⟩
  · intro hground
    rw [hlook]
    refine exists_congr fun γ => and_congr_right fun hwalk => ?_
    exact Canonical.sees_iff_valid hg hground (hne hwalk)

/-! ### A grounded grammar, and one that is not -/

/-- The grammar `S = a S b |`. -/
def nested : Grammar :=
  { terminals := #[⟨"a", some (.char 'a'), false, false, none⟩,
      ⟨"b", some (.char 'b'), false, false, none⟩, ⟨"$end", none, false, false, none⟩]
    nts := #[⟨"S", [0, 1]⟩]
    prods := #[⟨0, [.terminal 0, .nonterminal 0, .terminal 1], none⟩, ⟨0, [], none⟩]
    precs := #[]
    start := 0
    eof := 2
    error := none }

theorem isAugmented_nested : nested.augment.IsAugmented :=
  Grammar.isAugmented_augment (by decide)

theorem grounded_nested : Canonical.Grounded nested.augment := by
  have hvanish : nested.augment.Vanishes [.nonterminal 0] :=
    Grammar.vanishes_nonterminal_iff.2 ⟨1, by decide, by decide, .nil⟩
  have hrhs : ∀ p < 3, ∀ x ∈ nested.augment.rhs p, ∀ n < 3, x = .nonterminal n → n = 0 := by
    decide
  intro n hn
  have hmem : ∃ p, .nonterminal n ∈ nested.augment.rhs p := by
    cases hn with
    | accept hm => exact ⟨_, hm⟩
    | listed _ _ hm => exact ⟨_, hm⟩
  obtain ⟨p, hp⟩ := hmem
  have hlt : n < 2 := isAugmented_nested.nonterminal_lt p n hp
  rw [hrhs p (Grammar.lt_size_of_mem_rhs hp) _ hp n (by omega) rfl]
  exact Or.inl hvanish

theorem ofGrammar_exact_nested : nested.augment.IsAugmented ∧ Canonical.Grounded nested.augment ∧
    (run nested.augment (FirstSets.compute nested.augment) (steps nested.augment)
      (initial nested.augment)).queue = [] ∧
    IsCanonical nested.augment (ofGrammar nested.augment) ∧
    ∀ (i : Nat) (s : State), (ofGrammar nested.augment)[i]? = some s →
      ∀ item ∈ s.items nested.augment, ∀ t, t ∈ item.look ↔
        ∃ γ, walk (ofGrammar nested.augment) 0 γ = some i ∧
          Canonical.Valid nested.augment γ item.core t := by
  obtain ⟨hqueue, hcanonical, hlook⟩ := ofGrammar_exact isAugmented_nested
  refine ⟨isAugmented_nested, grounded_nested, hqueue, hcanonical, ?_⟩
  intro i s hs item hitem t
  exact (hlook i s hs item hitem t).2.2 grounded_nested

/-- The grammar `S = B S`, `B = B e`, in which no nonterminal derives anything that begins with a
terminal. -/
def hollow : Grammar :=
  { terminals := #[⟨"e", some (.char 'e'), false, false, none⟩,
      ⟨"$end", none, false, false, none⟩]
    nts := #[⟨"S", [0]⟩, ⟨"B", [1]⟩]
    prods := #[⟨0, [.nonterminal 1, .nonterminal 0], none⟩,
      ⟨1, [.nonterminal 1, .terminal 0], none⟩]
    precs := #[]
    start := 0
    eof := 1
    error := none }

theorem isAugmented_hollow : hollow.augment.IsAugmented :=
  Grammar.isAugmented_augment (by decide)

/-- Every production begins with a nonterminal. -/
theorem rhs_hollow {p : Nat} (hp : p < hollow.augment.prods.size) :
    ∃ n rest, hollow.augment.rhs p = .nonterminal n :: rest := by
  have hcases : p = 0 ∨ p = 1 ∨ p = 2 := by
    have : hollow.augment.prods.size = 3 := rfl
    omega
  rcases hcases with rfl | rfl | rfl
  · exact ⟨1, _, rfl⟩
  · exact ⟨1, _, rfl⟩
  · exact ⟨0, _, rfl⟩

theorem not_vanishes_hollow {x : Symbol} {xs : List Symbol} :
    ¬ hollow.augment.Vanishes (x :: xs) := by
  intro h
  generalize hys : x :: xs = ys at h
  induction h generalizing x xs with
  | nil => exact absurd hys (by simp)
  | cons hp _ _ ih _ =>
    obtain ⟨n, rest, hrhs⟩ := rhs_hollow hp
    exact ih hrhs.symm

theorem not_begins_hollow {t n : Nat} {rest : List Symbol} :
    ¬ hollow.augment.Begins t (.nonterminal n :: rest) := by
  intro h
  generalize hys : Symbol.nonterminal n :: rest = ys at h
  induction h generalizing n rest with
  | here => exact absurd hys (by simp)
  | inside _ hp _ ih =>
    obtain ⟨m, rest', hrhs⟩ := rhs_hollow hp
    exact ih hrhs.symm
  | behind hn _ _ => exact not_vanishes_hollow hn

/-- Only `B = B e` calls for `B` in front of a terminal. -/
theorem rest_hollow {c : Core} {rest : List Symbol} (hprod : c.prod ≠ 1)
    (h : c.rest hollow.augment = .nonterminal 1 :: rest) : rest = [.nonterminal 0] := by
  obtain ⟨prod, dot⟩ := c
  have hlt : prod < 3 := Grammar.lt_size_of_mem_rhs
    (Canonical.mem_rhs_of_next? (Canonical.next?_of_rest h))
  have hcases : prod = 0 ∨ prod = 2 := by
    simp only at hprod
    omega
  rcases hcases with rfl | rfl
  · rcases dot with _ | _ | k
    · exact (List.cons.inj h).2.symm
    · exact absurd (List.cons.inj h).1 (by decide)
    · exact absurd h (by simp [Core.rest, hollow, Grammar.augment, Grammar.rhs])
  · rcases dot with _ | _ | k
    · exact absurd (List.cons.inj h).1 (by decide)
    · exact absurd (List.cons.inj h).1 (by decide)
    · exact absurd h (by simp [Core.rest, hollow, Grammar.augment, Grammar.rhs])

/-- No LR(1) item of `B = B e` is valid. -/
theorem not_valid_hollow {γ : List Symbol} {c : Core} {t : Nat}
    (h : Canonical.Valid hollow.augment γ c t) : c.prod ≠ 1 := by
  induction h with
  | start => decide
  | @closure γ c t n p u rest _ hrest hp hu ih =>
    rintro (rfl : p = 1)
    obtain rfl : n = 1 := (isAugmented_hollow.lhs_of_mem_prodsOf n 1 hp).symm
    rw [rest_hollow ih hrest] at hu
    exact not_begins_hollow (Grammar.begins_iff_derives.2 hu)
  | goto _ _ ih => exact ih

/-- The item `B = . B e` of the first state has the lookahead `e`, which is one of no valid LR(1)
item. -/
theorem stray_lookahead : ∃ s item, (ofGrammar hollow.augment)[0]? = some s ∧
    item ∈ s.items hollow.augment ∧ item.core = ⟨1, 0⟩ ∧ 0 ∈ item.look ∧
    ¬ ∃ γ, walk (ofGrammar hollow.augment) 0 γ = some 0 ∧
      Canonical.Valid hollow.augment γ item.core 0 := by
  have hg := isAugmented_hollow
  have h := finished_ofGrammar hg
  obtain ⟨s, hs, hcores⟩ := h.coreSet_of_walk hg (walk_nil 0)
  -- `S' = . S $end` calls for `S = . B S`, this for `B = . B e`, and this for itself before `e`
  have hstart : Canonical.Closure hollow.augment (Canonical.kernelAfter hollow.augment []) ⟨2, 0⟩ :=
    .kernel rfl
  have hS := hstart.expand (n := 0) (p := 0) rfl (by decide)
  have hB := hS.expand (n := 1) (p := 1) rfl (by decide)
  have hrest : Core.rest hollow.augment ⟨1, 0⟩ = [.nonterminal 1, .terminal 0] := rfl
  have hsees : Canonical.Sees hollow.augment [] ⟨1, 0⟩ 0 := .begins hB hrest (by decide) (.here [])
  obtain ⟨item, hitem, hcore, hlook⟩ := h.exists_item hg hsees (walk_nil 0) hs
  refine ⟨s, item, hs, hitem, hcore, hlook, ?_⟩
  rintro ⟨γ, -, hvalid⟩
  exact not_valid_hollow hvalid (by rw [hcore])

end Collection

end ShiftReduce
