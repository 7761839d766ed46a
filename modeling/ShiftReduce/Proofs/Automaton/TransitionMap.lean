import ShiftReduce.Proofs.Automaton.Dfa

/-!
# Maps of transitions

A deterministic automaton as a map from states and letters to states, whose entries come in any order.
The order is lost when the entries are sorted into rows, so a map stands for one automaton with
ascending rows (`TransitionMap.toDfa`, `Represents.eq`).
-/

namespace ShiftReduce

/-- A deterministic automaton as a map, whose entries are enumerated in some order. -/
structure TransitionMap where
  /-- The number of states. -/
  size : Nat
  /-- The moves: a state and a letter, and the state that the letter leads to. -/
  moves : List ((Nat × Nat) × Nat)
  /-- The states that accept, with their terminals. -/
  accepts : List (Nat × Nat)
deriving DecidableEq

/-! ### Looking up -/

section Lookup

variable {κ β : Type} [BEq κ] [LawfulBEq κ] {l : List (κ × β)} {k : κ} {b : β}

/-- If no key comes twice, what is found is what is there. -/
theorem lookup_eq_some_iff_mem (h : (l.map Prod.fst).Nodup) : l.lookup k = some b ↔ (k, b) ∈ l := by
  constructor
  · intro hlookup
    obtain ⟨before, after, rfl, -⟩ := List.lookup_eq_some_iff.1 hlookup
    exact List.mem_append_right _ List.mem_cons_self
  · intro hmem
    obtain ⟨before, after, rfl⟩ := List.append_of_mem hmem
    refine List.lookup_eq_some_iff.2 ⟨before, after, rfl, fun entry hentry => ?_⟩
    rw [List.map_append, List.map_cons] at h
    have hne := (List.nodup_append.1 h).2.2 entry.1 (List.mem_map_of_mem hentry) k
      List.mem_cons_self
    exact bne_iff_ne.2 (Ne.symm hne)

end Lookup

namespace TransitionMap

/-- The state after reading `a` in state `p`. -/
def next (m : TransitionMap) (p a : Nat) : Option Nat := m.moves.lookup (p, a)

/-- The terminal that state `p` accepts. -/
def accept (m : TransitionMap) (p : Nat) : Option Nat := m.accepts.lookup p

/-- Brings moves into ascending order of the letter. -/
def sortMoves (moves : List (Nat × Nat)) : List (Nat × Nat) :=
  moves.mergeSort fun x y => x.1 < y.1 || x.1 == y.1 && x.2 ≤ y.2

variable {m : TransitionMap} {letters : Nat} {d d' : Dfa}

/-- The entries are those of a map from states and letters, and of one from states. -/
structure Bounded (letters : Nat) (m : TransitionMap) : Prop where
  moves_nodup : (m.moves.map Prod.fst).Nodup
  accepts_nodup : (m.accepts.map Prod.fst).Nodup
  source_lt : ∀ move ∈ m.moves, move.1.1 < m.size
  letter_lt : ∀ move ∈ m.moves, move.1.2 < letters
  accept_lt : ∀ entry ∈ m.accepts, entry.1 < m.size

/-- The automaton has the states of the map, and moves and accepts as the map says. -/
structure Represents (m : TransitionMap) (d : Dfa) : Prop where
  size : d.size = m.size
  next : ∀ p a, d.next p a = m.next p a
  accept : ∀ p, d.accept p = m.accept p

theorem Bounded.next_eq_some_iff (h : m.Bounded letters) {p a q : Nat} :
    m.next p a = some q ↔ ((p, a), q) ∈ m.moves :=
  lookup_eq_some_iff_mem h.moves_nodup

/-! ### The automaton of a map -/

/-- The moves of a state, in the order in which they are enumerated. -/
def movesOf (m : TransitionMap) (p : Nat) : List (Nat × Nat) :=
  (m.moves.filter fun move => move.1.1 == p).map fun move => (move.1.2, move.2)

/-- The automaton with ascending rows that the map stands for. -/
def toDfa (m : TransitionMap) : Dfa :=
  ⟨((List.range m.size).map fun p => ⟨sortMoves (m.movesOf p), m.accept p⟩).toArray⟩

theorem mem_movesOf {p a q : Nat} : (a, q) ∈ m.movesOf p ↔ ((p, a), q) ∈ m.moves := by
  rw [movesOf, List.mem_map]
  constructor
  · rintro ⟨⟨⟨p', a'⟩, q'⟩, hfilter, heq⟩
    obtain ⟨rfl, rfl⟩ := Prod.mk.inj heq
    obtain ⟨hmem, hp⟩ := List.mem_filter.1 hfilter
    obtain rfl : p' = p := beq_iff_eq.1 hp
    exact hmem
  · intro hmem
    exact ⟨((p, a), q), List.mem_filter.2 ⟨hmem, beq_self_eq_true p⟩, rfl⟩

theorem Bounded.nodup_movesOf (h : m.Bounded letters) (p : Nat) :
    ((m.movesOf p).map Prod.fst).Nodup := by
  have hmoves : m.moves.Pairwise fun x y => x.1 ≠ y.1 := List.pairwise_map.1 h.moves_nodup
  rw [movesOf, List.map_map]
  refine List.pairwise_map.2 ((hmoves.filter _).imp_of_mem ?_)
  intro x y hx hy hne heq
  -- the two moves are moves of the same state
  have hxp := beq_iff_eq.1 (List.mem_filter.1 hx).2
  have hyp := beq_iff_eq.1 (List.mem_filter.1 hy).2
  exact hne (Prod.ext (hxp.trans hyp.symm) heq)

theorem sortMoves_perm (moves : List (Nat × Nat)) : (sortMoves moves).Perm moves :=
  List.mergeSort_perm moves _

theorem pairwise_sortMoves {moves : List (Nat × Nat)} (h : (moves.map Prod.fst).Nodup) :
    ((sortMoves moves).map Prod.fst).Pairwise (· < ·) := by
  have hnodup : ((sortMoves moves).map Prod.fst).Nodup :=
    ((sortMoves_perm moves).map Prod.fst).nodup_iff.2 h
  have hsorted := @List.pairwise_mergeSort (Nat × Nat)
    (fun x y => x.1 < y.1 || x.1 == y.1 && x.2 ≤ y.2)
    (by simp only [Bool.or_eq_true, Bool.and_eq_true, decide_eq_true_eq, beq_iff_eq]; omega)
    (by simp only [Bool.or_eq_true, Bool.and_eq_true, decide_eq_true_eq, beq_iff_eq]; omega) moves
  refine List.pairwise_map.2 ((hsorted.and (List.pairwise_map.1 hnodup)).imp ?_)
  rintro x y ⟨hle, hne⟩
  simp only [Bool.or_eq_true, Bool.and_eq_true, decide_eq_true_eq, beq_iff_eq] at hle
  omega

theorem getElem?_toDfa {p : Nat} {row : DfaRow} : m.toDfa.rows[p]? = some row ↔
    p < m.size ∧ row = ⟨sortMoves (m.movesOf p), m.accept p⟩ := by
  rw [toDfa, List.getElem?_toArray, List.getElem?_map, Option.map_eq_some_iff]
  constructor
  · rintro ⟨p', hp', rfl⟩
    obtain ⟨hlt, rfl⟩ := List.getElem?_eq_some_iff.1 hp'
    rw [List.length_range] at hlt
    rw [List.getElem_range]
    exact ⟨hlt, rfl⟩
  · rintro ⟨hp, rfl⟩
    exact ⟨p, List.getElem?_range hp, rfl⟩

theorem Bounded.sorted_toDfa (h : m.Bounded letters) : m.toDfa.Sorted letters := by
  intro row hrow
  obtain ⟨p, hp⟩ := List.mem_iff_getElem?.1 hrow
  rw [Array.getElem?_toList, getElem?_toDfa] at hp
  obtain ⟨-, rfl⟩ := hp
  refine ⟨pairwise_sortMoves (h.nodup_movesOf p), fun {a q} hmove => ?_⟩
  exact h.letter_lt _ (mem_movesOf.1 ((sortMoves_perm _).mem_iff.1 hmove))

theorem Bounded.represents_toDfa (h : m.Bounded letters) : m.Represents m.toDfa where
  size := by rw [Dfa.size, toDfa, List.size_toArray, List.length_map, List.length_range]
  next p a := by
    refine Option.ext fun q => ?_
    rw [Dfa.next_eq_some_iff h.sorted_toDfa, h.next_eq_some_iff]
    constructor
    · rintro ⟨row, hrow, hmove⟩
      obtain ⟨-, rfl⟩ := getElem?_toDfa.1 hrow
      exact mem_movesOf.1 ((sortMoves_perm _).mem_iff.1 hmove)
    · intro hmove
      exact ⟨_, getElem?_toDfa.2 ⟨h.source_lt _ hmove, rfl⟩,
        (sortMoves_perm _).mem_iff.2 (mem_movesOf.2 hmove)⟩
  accept p := by
    refine Option.ext fun v => ?_
    rw [Dfa.accept, Option.bind_eq_some_iff]
    constructor
    · rintro ⟨row, hrow, hv⟩
      obtain ⟨-, rfl⟩ := getElem?_toDfa.1 hrow
      exact hv
    · intro hv
      have hmem := (lookup_eq_some_iff_mem h.accepts_nodup).1 hv
      exact ⟨_, getElem?_toDfa.2 ⟨h.accept_lt _ hmem, rfl⟩, hv⟩

/-- Rows that ascend are told by their moves. -/
theorem eq_of_mem_iff {moves moves' : List (Nat × Nat)} (h : (moves.map Prod.fst).Pairwise (· < ·))
    (h' : (moves'.map Prod.fst).Pairwise (· < ·)) (hmem : ∀ x, x ∈ moves ↔ x ∈ moves') :
    moves = moves' := by
  have hpair := List.pairwise_map.1 h
  have hpair' := List.pairwise_map.1 h'
  have hne : ∀ {x y : Nat × Nat}, x.1 < y.1 → x ≠ y := by
    rintro x y hlt rfl
    exact Nat.lt_irrefl _ hlt
  have hperm : moves.Perm moves' :=
    (List.perm_ext_iff_of_nodup (hpair.imp hne) (hpair'.imp hne)).2 hmem
  exact hperm.eq_of_pairwise (fun x y _ _ hxy hyx => absurd hyx (Nat.lt_asymm hxy)) hpair hpair'

/-- A map stands for one automaton with ascending rows. -/
theorem Represents.eq (h : m.Represents d) (h' : m.Represents d') (hd : d.Sorted letters)
    (hd' : d'.Sorted letters) : d = d' := by
  have hsize : d.rows.size = d'.rows.size := h.size.trans h'.size.symm
  refine congrArg Dfa.mk (Array.ext hsize fun p hp hp' => ?_)
  have hrow : d.rows[p]? = some d.rows[p] := Array.getElem?_eq_getElem hp
  have hrow' : d'.rows[p]? = some d'.rows[p] := Array.getElem?_eq_getElem hp'
  have haccept : d.rows[p].accept = d'.rows[p].accept := by
    have := (h.accept p).trans (h'.accept p).symm
    rwa [Dfa.accept, Dfa.accept, hrow, hrow'] at this
  have hmoves : d.rows[p].moves = d'.rows[p].moves := by
    refine eq_of_mem_iff (hd _ (Array.getElem_mem_toList hp)).1
      (hd' _ (Array.getElem_mem_toList hp')).1 ?_
    rintro ⟨a, q⟩
    have := (h.next p a).trans (h'.next p a).symm
    have hiff := Dfa.next_eq_some_iff hd (p := p) (a := a) (j := q)
    rw [this, Dfa.next_eq_some_iff hd', hrow, hrow'] at hiff
    simpa using hiff.symm
  cases hr : d.rows[p]
  cases hr' : d'.rows[p]
  rw [hr, hr'] at haccept hmoves
  exact congrArg₂ DfaRow.mk hmoves haccept

end TransitionMap

end ShiftReduce
