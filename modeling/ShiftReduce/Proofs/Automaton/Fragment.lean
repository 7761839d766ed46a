import ShiftReduce.Automaton.Fragment
import ShiftReduce.Proofs.Automaton.Alphabet
import ShiftReduce.Proofs.Automaton.Nfa

/-!
# Fragments read the language of their expression

A fragment is described by what it adds to an automaton. `Nfa.Extends m m' entry` says that the edges
added on the way from `m` to `m'` leave the entry or new states and lead to new states only, and
`IsFragment` that the paths through new states from the entry to the exit read exactly a given
language. Since a path in a larger automaton can be cut where it leaves the smaller one
(`Reads.split`), fragments can be put together: one after the other (`IsFragment.seq`), around in a
loop (`reads_loop`), with a way around them (`reads_bypass`), or side by side into one exit
(`reads_join`). The exit is reached along silent edges exactly if the language has the empty text in
it (`IsFragment.exit_mem_closure_iff`).

The main statement is `builds_add`: the fragment of an expression reads its language. Over any
alphabet this is the language in which a leaf matches the symbols whose letters lie in its ranges
(`MatchesLetter`); if the alphabet tells apart what the leaves tell apart, it is the language of the
expression itself (`langOver_matchesLetter`).
-/

namespace ShiftReduce

open Computability

namespace Nfa

variable {σ : Type} {letter : σ → Nat} {letters : Nat} {m m₁ m₂ m' : Nfa} {entry x : Nat}

/-- Only edges out of the entry and out of new states have been added, and only into new states. -/
structure Extends (m m' : Nfa) (entry : Nat) : Prop where
  size_le : m.size ≤ m'.size
  accepts : m'.accepts = m.accepts
  mono : ∀ {p label q}, m.HasEdge p label q → m'.HasEdge p label q
  added : ∀ {p label q}, m'.HasEdge p label q →
    m.HasEdge p label q ∨ m.size ≤ q ∧ (p = entry ∨ m.size ≤ p)

theorem Extends.refl (m : Nfa) (entry : Nat) : Extends m m entry where
  size_le := Nat.le_refl _
  accepts := rfl
  mono h := h
  added h := Or.inl h

theorem Extends.trans (h₁ : Extends m m₁ entry) (hx : x = entry ∨ m.size ≤ x)
    (h₂ : Extends m₁ m₂ x) : Extends m m₂ entry where
  size_le := Nat.le_trans h₁.size_le h₂.size_le
  accepts := h₂.accepts.trans h₁.accepts
  mono h := h₂.mono (h₁.mono h)
  added h := by
    rcases h₂.added h with h | ⟨hq, rfl | hp⟩
    · exact h₁.added h
    · exact Or.inr ⟨Nat.le_trans h₁.size_le hq, hx⟩
    · exact Or.inr ⟨Nat.le_trans h₁.size_le hq, Or.inr (Nat.le_trans h₁.size_le hp)⟩

/-- One more silent edge between states that may be connected. -/
theorem Extends.addSilent (h : Extends m m' entry) {p q : Nat} (hp : p < m'.size)
    (hsource : p = entry ∨ m.size ≤ p) (hq : m.size ≤ q) :
    Extends m (m'.addSilent p q) entry where
  size_le := by
    rw [size_addSilent]
    exact h.size_le
  accepts := h.accepts
  mono hedge := (hasEdge_addSilent hp).2 (Or.inl (h.mono hedge))
  added hedge := by
    rcases (hasEdge_addSilent hp).1 hedge with hedge | ⟨rfl, -, rfl⟩
    · exact h.added hedge
    · exact Or.inr ⟨hq, hsource⟩

theorem Extends.addState (h : Extends m m' entry) : Extends m m'.addState entry where
  size_le := by
    rw [size_addState]
    exact Nat.le_succ_of_le h.size_le
  accepts := h.accepts
  mono hedge := hasEdge_addState.2 (h.mono hedge)
  added hedge := h.added (hasEdge_addState.1 hedge)

theorem Bounded.addState (h : m.Bounded letters) : m.addState.Bounded letters where
  target_lt hedge := by
    rw [size_addState]
    exact Nat.lt_succ_of_lt (h.target_lt (hasEdge_addState.1 hedge))
  letter_lt hedge := h.letter_lt (hasEdge_addState.1 hedge)

theorem Bounded.addSilent (h : m.Bounded letters) {p q : Nat} (hp : p < m.size) (hq : q < m.size) :
    (m.addSilent p q).Bounded letters where
  target_lt hedge := by
    rw [size_addSilent]
    rcases (hasEdge_addSilent hp).1 hedge with hedge | ⟨-, -, rfl⟩
    · exact h.target_lt hedge
    · exact hq
  letter_lt hedge := by
    rcases (hasEdge_addSilent hp).1 hedge with hedge | ⟨-, hlabel, -⟩
    · exact h.letter_lt hedge
    · exact absurd hlabel (by simp)

/-- A state that no edge leaves. -/
def Final (m : Nfa) (x : Nat) : Prop := ∀ label q, ¬ m.HasEdge x label q

/-- A path in a larger automaton stays in the smaller one, or leaves it at the entry for good. -/
theorem Reads.split (hext : Extends m m' x) (hm : m.Bounded letters) {n p q : Nat}
    (hp : p < m.size) {w : List σ} (h : m'.Reads letter n p w q) :
    (q < m.size ∧ m.Reads letter n p w q) ∨
      (m.size ≤ q ∧ ∃ u v, w = u ++ v ∧ m.Reads letter n p u x ∧ m'.Reads letter m.size x v q) := by
  induction h with
  | nil => exact Or.inl ⟨hp, .nil⟩
  | @step w q r label _ hedge hr ih =>
    rcases ih with ⟨hq, hread⟩ | ⟨hq, u, v, rfl, hu, hv⟩
    · rcases hext.added hedge with hold | ⟨hnew, rfl | hge⟩
      · exact Or.inl ⟨hm.target_lt hold, .step label hread hold hr⟩
      · exact Or.inr ⟨hnew, w, label.toList, rfl, hread, .step label .nil hedge hnew⟩
      · exact absurd hq (Nat.not_lt_of_le hge)
    · rcases hext.added hedge with hold | ⟨hnew, -⟩
      · exact absurd (lt_size_of_hasEdge hold) (Nat.not_lt_of_le hq)
      · refine Or.inr ⟨hnew, u, v ++ label.toList, ?_, hu, .step label hv hedge hnew⟩
        rw [List.append_assoc]

end Nfa

namespace Fragment

open Nfa

variable {σ : Type} {letter : σ → Nat} {letters : Nat} {L L₁ L₂ : Language σ} {m m₁ m₂ m₃ : Nfa}
  {entry x last : Nat}

/-- What is added between the entry and the exit reads the language `L`. The exit is a new state,
unless nothing has been added. -/
structure IsFragment (letters : Nat) (letter : σ → Nat) (L : Language σ) (m : Nfa) (entry : Nat)
    (r : Nat × Nfa) : Prop where
  extends_ : Extends m r.2 entry
  bounded : r.2.Bounded letters
  stays : r = (entry, m) ∨ m.size ≤ r.1
  exit_lt : r.1 < r.2.size
  reads : ∀ w, r.2.Reads letter m.size entry w r.1 ↔ w ∈ L

theorem IsFragment.exit {r : Nat × Nfa} (h : IsFragment letters letter L m entry r) :
    r.1 = entry ∨ m.size ≤ r.1 :=
  h.stays.imp_left (congrArg Prod.fst)

/-- The builder adds fragments that read the language `L`. -/
def Builds (letters : Nat) (letter : σ → Nat) (L : Language σ) (b : Builder) : Prop :=
  ∀ m entry, m.Bounded letters → entry < m.size → IsFragment letters letter L m entry (b entry m)

theorem isFragment_nil (hm : m.Bounded letters) (hentry : entry < m.size) :
    IsFragment letters letter 1 m entry (entry, m) where
  extends_ := Extends.refl m entry
  bounded := hm
  stays := Or.inl rfl
  exit_lt := hentry
  reads w := by
    rw [Language.mem_one]
    constructor
    · intro h
      exact (h.eq_nil hentry).1
    · rintro rfl
      exact .nil

/-- A fragment whose exit is its entry reads the empty text. -/
theorem IsFragment.nil_mem {r : Nat × Nfa} (h : IsFragment letters letter L m entry r)
    (hexit : r.1 = entry) : [] ∈ L := by
  rw [← h.reads, hexit]
  exact .nil

/-- The exit is reached along silent edges exactly if the empty text is in the language. -/
theorem IsFragment.exit_mem_closure_iff {r : Nat × Nfa}
    (h : IsFragment letters letter L m entry r) (hm : m.Bounded letters) (hentry : entry < m.size) :
    r.1 ∈ r.2.closure (IdSet.single entry) ↔ [] ∈ L := by
  have hbelow : (IdSet.single entry).Below r.2.size := by
    intro i hi
    rw [IdSet.mem_single.1 hi]
    exact Nat.lt_of_lt_of_le hentry h.extends_.size_le
  rw [mem_closure h.bounded hbelow]
  simp only [IdSet.mem_single, exists_eq_left]
  rw [← reads_nil_iff]
  constructor
  · intro hread
    rcases hread.split h.extends_ hm hentry with ⟨hlt, -⟩ | ⟨-, u, v, hnil, -, hv⟩
    · exact h.nil_mem (h.exit.resolve_right (Nat.not_le_of_lt hlt))
    · -- the path may go astray before it leaves the entry for good
      obtain ⟨-, rfl⟩ := List.append_eq_nil_iff.1 hnil.symm
      exact (h.reads []).1 hv
  · intro hnil
    exact ((h.reads []).2 hnil).mono id (Nat.zero_le _)

/-- Two fragments one after the other. -/
theorem IsFragment.seq {r : Nat × Nfa} (hentry : entry < m.size)
    (h₁ : IsFragment letters letter L₁ m entry (x, m₁))
    (h₂ : IsFragment letters letter L₂ m₁ x r) :
    IsFragment letters letter (L₁ * L₂) m entry r where
  extends_ := h₁.extends_.trans h₁.exit h₂.extends_
  bounded := h₂.bounded
  stays := by
    rcases h₂.stays with rfl | hle
    · exact h₁.stays
    · exact Or.inr (Nat.le_trans h₁.extends_.size_le hle)
  exit_lt := h₂.exit_lt
  reads w := by
    rw [Language.mem_mul]
    constructor
    · intro h
      rcases h.split h₂.extends_ h₁.bounded (Nat.lt_of_lt_of_le hentry h₁.extends_.size_le) with
        ⟨hlt, hread⟩ | ⟨hle, u, v, rfl, hu, hv⟩
      · have heq := h₂.exit.resolve_right (Nat.not_le_of_lt hlt)
        rw [heq] at hread
        exact ⟨w, (h₁.reads w).1 hread, [], h₂.nil_mem heq, List.append_nil w⟩
      · exact ⟨u, (h₁.reads u).1 hu, v, (h₂.reads v).1 hv, rfl⟩
    · rintro ⟨u, hu, v, hv, rfl⟩
      exact (((h₁.reads u).2 hu).mono h₂.extends_.mono (Nat.le_refl _)).trans
        (((h₂.reads v).2 hv).mono id h₁.extends_.size_le)

theorem builds_addCopies {inner : Builder} (h : Builds letters letter L inner) (n : Nat) :
    Builds letters letter (L ^ n) (addCopies inner n) := by
  induction n with
  | zero =>
    intro m entry hm hentry
    rw [pow_zero]
    exact isFragment_nil hm hentry
  | succ n ih =>
    intro m entry hm hentry
    have hfirst := h m entry hm hentry
    rw [pow_succ']
    exact hfirst.seq hentry (ih _ _ hfirst.bounded hfirst.exit_lt)

/-! ### Loops and options -/

/-- The automaton with a new state behind a silent edge from the entry. -/
def enter (m : Nfa) (entry : Nat) : Nfa := m.addState.addSilent entry m.size

@[simp] theorem size_enter (m : Nfa) (entry : Nat) : (enter m entry).size = m.size + 1 := by
  rw [enter, size_addSilent, size_addState]

theorem hasEdge_enter (hentry : entry < m.size) {p : Nat} {label : Option Nat} {q : Nat} :
    (enter m entry).HasEdge p label q ↔
      m.HasEdge p label q ∨ p = entry ∧ label = none ∧ q = m.size := by
  rw [enter, hasEdge_addSilent (by rw [size_addState]; omega), hasEdge_addState]

theorem extends_enter (hentry : entry < m.size) : Extends m (enter m entry) entry :=
  (Extends.refl m entry).addState.addSilent (by rw [size_addState]; omega) (Or.inl rfl)
    (Nat.le_refl _)

theorem bounded_enter (hm : m.Bounded letters) (hentry : entry < m.size) :
    (enter m entry).Bounded letters :=
  hm.addState.addSilent (by rw [size_addState]; omega) (by rw [size_addState]; omega)

/-- A fragment that is entered through a state of its own. -/
theorem IsFragment.extends_of_enter {r : Nat × Nfa} (hentry : entry < m.size)
    (h : IsFragment letters letter L (enter m entry) m.size r) : Extends m r.2 entry :=
  (extends_enter hentry).trans (Or.inr (Nat.le_refl _)) h.extends_

/-- The edges of a fragment that is entered through a state of its own. -/
theorem IsFragment.edges_of_enter {r : Nat × Nfa} (hm : m.Bounded letters) (hentry : entry < m.size)
    (h : IsFragment letters letter L (enter m entry) m.size r) {p : Nat} {label : Option Nat}
    {q : Nat} (hedge : r.2.HasEdge p label q) (hq : m.size ≤ q) :
    (p = entry ∧ label = none ∧ q = m.size) ∨ (m.size ≤ p ∧ m.size + 1 ≤ q) := by
  rcases h.extends_.added hedge with hold | ⟨hnew, hp⟩
  · rcases (hasEdge_enter hentry).1 hold with hold | hin
    · exact absurd (hm.target_lt hold) (Nat.not_lt_of_le hq)
    · exact Or.inl hin
  · rw [size_enter] at hnew hp
    exact Or.inr ⟨by omega, hnew⟩

/-- The paths through a fragment that is entered through a state of its own. -/
theorem IsFragment.reads_of_enter (h : IsFragment letters letter L (enter m entry) m.size (last, m₂))
    (w : List σ) : m₂.Reads letter (m.size + 1) m.size w last ↔ w ∈ L := by
  rw [← h.reads w, size_enter]

/-- A fragment that is entered through a state of its own ends in a new state. -/
theorem IsFragment.le_of_enter (h : IsFragment letters letter L (enter m entry) m.size (last, m₂)) :
    m.size ≤ last ∧ last < m₂.size := by
  have hlast : last < m₂.size := h.exit_lt
  have hle : (enter m entry).size ≤ m₂.size := h.extends_.size_le
  have hexit : last = m.size ∨ (enter m entry).size ≤ last := h.exit
  rw [size_enter] at hle hexit
  omega

/-- The paths through a loop: any number of rounds, then a part of a round. -/
theorem reads_loop (hm : m.Bounded letters) (hentry : entry < m.size)
    (h : IsFragment letters letter L (enter m entry) m.size (last, m₂)) {w : List σ} {q : Nat} :
    (m₂.addSilent last m.size).Reads letter m.size entry w q ↔ (w = [] ∧ q = entry) ∨
      ∃ u ∈ L∗, ∃ v, w = u ++ v ∧ m₂.Reads letter (m.size + 1) m.size v q := by
  obtain ⟨hle, hlast⟩ := h.le_of_enter
  constructor
  · intro hpath
    induction hpath with
    | nil => exact Or.inl ⟨rfl, rfl⟩
    | @step w q r label _ hedge hr ih =>
      right
      rcases (hasEdge_addSilent hlast).1 hedge with hedge | ⟨rfl, hlabel, rfl⟩
      · rcases h.edges_of_enter hm hentry hedge hr with ⟨rfl, hlabel, rfl⟩ | ⟨hq, hr'⟩
        · -- into the loop
          rcases ih with ⟨rfl, -⟩ | ⟨u, hu, v, rfl, hv⟩
          · refine ⟨[], Language.nil_mem_kstar L, [], ?_, .nil⟩
            rw [Option.map_eq_none_iff.1 hlabel]
            rfl
          · exact absurd (hv.eq_or_le) (by omega)
        · -- on within a round
          rcases ih with ⟨-, rfl⟩ | ⟨u, hu, v, rfl, hv⟩
          · omega
          · exact ⟨u, hu, v ++ label.toList, by rw [List.append_assoc], .step label hv hedge hr'⟩
      · -- a round is finished
        rw [Option.map_eq_none_iff.1 hlabel, Option.toList_none, List.append_nil]
        rcases ih with ⟨rfl, heq⟩ | ⟨u, hu, v, rfl, hv⟩
        · omega
        · refine ⟨u ++ v, ?_, [], (List.append_nil _).symm, .nil⟩
          rw [← Language.one_add_kstar_mul_self_eq_kstar]
          exact Or.inr (Language.mem_mul.2 ⟨u, hu, v, (h.reads_of_enter v).1 hv, rfl⟩)
  · have hmono : ∀ {p label q}, m₂.HasEdge p label q →
        (m₂.addSilent last m.size).HasEdge p label q :=
      fun hedge => (hasEdge_addSilent hlast).2 (Or.inl hedge)
    have hback : (m₂.addSilent last m.size).HasEdge last none m.size :=
      (hasEdge_addSilent hlast).2 (Or.inr ⟨rfl, rfl, rfl⟩)
    have hin : (m₂.addSilent last m.size).HasEdge entry none m.size :=
      hmono (h.extends_.mono ((hasEdge_enter hentry).2 (Or.inr ⟨rfl, rfl, rfl⟩)))
    rintro (⟨rfl, rfl⟩ | ⟨u, hu, v, rfl, hv⟩)
    · exact .nil
    · refine Reads.trans (q := m.size) ?_ (hv.mono hmono (Nat.le_succ _))
      -- one round after the other
      obtain ⟨rounds, rfl, hrounds⟩ := Language.mem_kstar.1 hu
      clear hu
      induction rounds using List.reverseRecOn with
      | nil => exact Reads.nil.silent hin (Nat.le_refl _)
      | append_singleton rounds w ih =>
        rw [List.flatten_append, List.flatten_singleton]
        have hw := (h.reads_of_enter w).2 (hrounds w (by simp))
        have := ih fun y hy => hrounds y (List.mem_append_left _ hy)
        exact (this.trans (hw.mono hmono (Nat.le_succ _))).silent hback (Nat.le_refl _)

/-- The path from the entrance of a loop to itself. -/
theorem reads_self_iff {n : Nat} (hx : x < n) {v : List σ} : m.Reads letter n x v x ↔ v = [] := by
  constructor
  · intro h
    exact (h.eq_nil hx).1
  · rintro rfl
    exact .nil

theorem IsFragment.loop (hentry : entry < m.size)
    (h : IsFragment letters letter L (enter m entry) m.size (last, m₂)) :
    Extends m (m₂.addSilent last m.size) entry ∧ (m₂.addSilent last m.size).Bounded letters := by
  obtain ⟨hle, hlast⟩ := h.le_of_enter
  exact ⟨(h.extends_of_enter hentry).addSilent hlast (Or.inr hle) (Nat.le_refl _),
    h.bounded.addSilent hlast (Nat.lt_of_le_of_lt hle hlast)⟩

theorem builds_addLoop {inner : Builder} (h : Builds letters letter L inner) :
    Builds letters letter L∗ (addLoop inner) := by
  intro m entry hm hentry
  have hinner := h (enter m entry) m.size (bounded_enter hm hentry) (by rw [size_enter]; omega)
  obtain ⟨hext, hbounded⟩ := hinner.loop hentry
  obtain ⟨hle, hlast⟩ := hinner.le_of_enter
  refine
    { extends_ := hext, bounded := hbounded, stays := Or.inr (Nat.le_refl _), exit_lt := ?_,
      reads := ?_ }
  · simp only [addLoop, size_addSilent]
    exact Nat.lt_of_le_of_lt hle hlast
  · intro w
    refine (reads_loop hm hentry hinner).trans ?_
    constructor
    · rintro (⟨-, heq⟩ | ⟨u, hu, v, rfl, hv⟩)
      · exact absurd heq (Nat.ne_of_gt hentry)
      · rw [(reads_self_iff (Nat.lt_succ_self _)).1 hv, List.append_nil]
        exact hu
    · intro hw
      exact Or.inr ⟨w, hw, [], (List.append_nil w).symm, .nil⟩

theorem builds_addLoop1 {inner : Builder} (h : Builds letters letter L inner) :
    Builds letters letter (L * L∗) (addLoop1 inner) := by
  intro m entry hm hentry
  have hinner := h (enter m entry) m.size (bounded_enter hm hentry) (by rw [size_enter]; omega)
  obtain ⟨hext, hbounded⟩ := hinner.loop hentry
  obtain ⟨hle, hlast⟩ := hinner.le_of_enter
  refine
    { extends_ := hext, bounded := hbounded, stays := Or.inr hle, exit_lt := ?_, reads := ?_ }
  · simp only [addLoop1, size_addSilent]
    exact hlast
  · intro w
    refine (reads_loop hm hentry hinner).trans ?_
    rw [← Language.mul_self_kstar_comm, Language.mem_mul]
    constructor
    · rintro (⟨-, heq⟩ | ⟨u, hu, v, rfl, hv⟩)
      · change (inner m.size (enter m entry)).1 = entry at heq
        omega
      · exact ⟨u, hu, v, (hinner.reads_of_enter v).1 hv, rfl⟩
    · rintro ⟨u, hu, v, hv, rfl⟩
      exact Or.inr ⟨u, hu, v, rfl, (hinner.reads_of_enter v).2 hv⟩

/-- The automaton with a new state behind silent edges from the state `last` and from the entry, so that
one comes there through what lies before `last`, or around it. -/
def bypass (m : Nfa) (last entry : Nat) : Nfa :=
  (m.addState.addSilent last m.size).addSilent entry m.size

@[simp] theorem size_bypass (m : Nfa) (last entry : Nat) :
    (bypass m last entry).size = m.size + 1 := by
  rw [bypass, size_addSilent, size_addSilent, size_addState]

theorem hasEdge_bypass (hlast : last < m.size) (hentry : entry < m.size) {p : Nat}
    {label : Option Nat} {q : Nat} : (bypass m last entry).HasEdge p label q ↔
      m.HasEdge p label q ∨ (p = last ∨ p = entry) ∧ label = none ∧ q = m.size := by
  rw [bypass, hasEdge_addSilent (by simp only [size_addSilent, size_addState]; omega),
    hasEdge_addSilent (by rw [size_addState]; omega), hasEdge_addState, or_assoc, or_and_right]

theorem extends_bypass (h : Extends m m₂ entry) (hlast : last < m₂.size) (hsource : m.size ≤ last)
    (hentry : entry < m₂.size) : Extends m (bypass m₂ last entry) entry := by
  refine (h.addState.addSilent ?_ (Or.inr hsource) h.size_le).addSilent ?_ (Or.inl rfl) h.size_le
  · rw [size_addState]
    omega
  · rw [size_addSilent, size_addState]
    omega

theorem bounded_bypass (hm : m.Bounded letters) (hlast : last < m.size) (hentry : entry < m.size) :
    (bypass m last entry).Bounded letters := by
  refine (hm.addState.addSilent ?_ ?_).addSilent ?_ ?_
  all_goals
    simp only [size_addSilent, size_addState]
    omega

/-- The paths through an optional part: before its exit is reached they are in the inner fragment. -/
theorem reads_bypass (hm : m.Bounded letters) (hentry : entry < m.size)
    (h : IsFragment letters letter L (enter m entry) m.size (last, m₂)) {w : List σ} {q : Nat}
    (hpath : (bypass m₂ last entry).Reads letter m.size entry w q) : (w = [] ∧ q = entry) ∨
      (q < m₂.size ∧ m₂.Reads letter (m.size + 1) m.size w q) ∨
      (q = m₂.size ∧ (w = [] ∨ w ∈ L)) := by
  obtain ⟨hle, hlast⟩ := h.le_of_enter
  induction hpath with
  | nil => exact Or.inl ⟨rfl, rfl⟩
  | @step w q r label _ hedge hr ih =>
    rcases (hasEdge_bypass hlast (by omega)).1 hedge with hold | ⟨hq, hlabel, rfl⟩
    · refine Or.inr (Or.inl ⟨h.bounded.target_lt hold, ?_⟩)
      have hsource : q < m₂.size := lt_size_of_hasEdge hold
      rcases h.edges_of_enter hm hentry hold hr with ⟨rfl, hlabel, rfl⟩ | ⟨hq, hr'⟩
      · -- into the inner fragment
        rw [Option.map_eq_none_iff.1 hlabel, Option.toList_none, List.append_nil]
        rcases ih with ⟨rfl, -⟩ | ⟨-, hv⟩ | ⟨heq, -⟩
        · exact .nil
        · exact absurd hv.eq_or_le (by omega)
        · omega
      · -- on within it
        rcases ih with ⟨-, rfl⟩ | ⟨-, hv⟩ | ⟨heq, -⟩
        · omega
        · exact .step label hv hold hr'
        · omega
    · -- into the exit, from the end of the inner fragment or from the entry
      refine Or.inr (Or.inr ⟨rfl, ?_⟩)
      rw [Option.map_eq_none_iff.1 hlabel, Option.toList_none, List.append_nil]
      rcases ih with ⟨rfl, -⟩ | ⟨hlt, hv⟩ | ⟨heq, -⟩
      · exact Or.inl rfl
      · rcases hq with rfl | rfl
        · exact Or.inr ((h.reads_of_enter w).1 hv)
        · exact absurd hv.eq_or_le (by omega)
      · omega

theorem reads_bypass_iff (hm : m.Bounded letters) (hentry : entry < m.size)
    (h : IsFragment letters letter L (enter m entry) m.size (last, m₂)) {w : List σ} :
    (bypass m₂ last entry).Reads letter m.size entry w m₂.size ↔ w = [] ∨ w ∈ L := by
  obtain ⟨hle, hlast⟩ := h.le_of_enter
  have hedges {p : Nat} {label : Option Nat} {q : Nat} :=
    @hasEdge_bypass m₂ entry last hlast (by omega) p label q
  constructor
  · intro hpath
    rcases reads_bypass hm hentry h hpath with ⟨-, heq⟩ | ⟨hlt, -⟩ | ⟨-, hw⟩
    · omega
    · exact absurd hlt (Nat.lt_irrefl _)
    · exact hw
  · have hlarge : m.size ≤ m₂.size := by omega
    rintro (rfl | hw)
    · exact Reads.nil.silent (hedges.2 (Or.inr ⟨Or.inr rfl, rfl, rfl⟩)) hlarge
    · have hin := h.extends_.mono ((hasEdge_enter hentry).2 (Or.inr ⟨rfl, rfl, rfl⟩))
      have hinside := ((h.reads_of_enter w).2 hw).mono (fun hedge => hedges.2 (Or.inl hedge))
        (Nat.le_succ m.size)
      exact ((Reads.nil.silent (hedges.2 (Or.inl hin)) (Nat.le_refl _)).trans hinside).silent
        (hedges.2 (Or.inr ⟨Or.inl rfl, rfl, rfl⟩)) hlarge

theorem builds_addOptional {inner : Builder} (h : Builds letters letter L inner) :
    Builds letters letter (1 + L) (addOptional inner) := by
  intro m entry hm hentry
  have hinner := h (enter m entry) m.size (bounded_enter hm hentry) (by rw [size_enter]; omega)
  have hadd : addOptional inner entry m = ((inner m.size (enter m entry)).2.size,
      bypass (inner m.size (enter m entry)).2 (inner m.size (enter m entry)).1 entry) := rfl
  rw [hadd]
  generalize inner m.size (enter m entry) = r at hinner ⊢
  obtain ⟨last, m₂⟩ := r
  obtain ⟨hle, hlast⟩ := hinner.le_of_enter
  have hlarge : m.size ≤ m₂.size := by omega
  have hentry' : entry < m₂.size := Nat.lt_of_lt_of_le hentry hlarge
  refine
    { extends_ := extends_bypass (hinner.extends_of_enter hentry) hlast hle hentry'
      bounded := bounded_bypass hinner.bounded hlast hentry'
      stays := Or.inr hlarge, exit_lt := ?_, reads := fun w => ?_ }
  · rw [size_bypass]
    exact Nat.lt_succ_self _
  · rw [Language.mem_add, Language.mem_one]
    exact reads_bypass_iff hm hentry hinner

/-! ### Side by side -/

/-- The exit of a fragment that does not begin in a state is not this state. -/
theorem IsFragment.exit_ne {p : Nat} {r : Nat × Nfa} (h : IsFragment letters letter L m p r)
    (hx : x < m.size) (hpx : p ≠ x) : r.1 ≠ x := by
  rcases h.exit with heq | hge
  · rw [heq]
    exact hpx
  · exact Nat.ne_of_gt (Nat.lt_of_lt_of_le hx hge)

/-- If the exit of a fragment from `p` is joined to the final state `x`, a path stays in the automaton
before, or it leaves it at `p` for good and ends in the fragment, or in `x` after it. -/
theorem IsFragment.split_join {p : Nat} (h : IsFragment letters letter L m p (last, m₂))
    (hm : m.Bounded letters) (hentry : entry < m.size) (hx : x < m.size) (hpx : p ≠ x)
    (hfinal : m.Final x) {n : Nat} {w : List σ} {q : Nat}
    (hpath : (m₂.addSilent last x).Reads letter n entry w q) :
    (q < m.size ∧ m.Reads letter n entry w q) ∨
      (m.size ≤ q ∧ ∃ u v, w = u ++ v ∧ m.Reads letter n entry u p ∧
        m₂.Reads letter m.size p v q) ∨
      (q = x ∧ ∃ u v, w = u ++ v ∧ m.Reads letter n entry u p ∧ v ∈ L) := by
  induction hpath with
  | nil => exact Or.inl ⟨hentry, .nil⟩
  | @step w q r label _ hedge hr ih =>
    rcases (hasEdge_addSilent h.exit_lt).1 hedge with hedge | ⟨rfl, hlabel, rfl⟩
    · rcases h.extends_.added hedge with hold | ⟨hnew, hq⟩
      · rcases ih with ⟨-, hread⟩ | ⟨hge, -⟩ | ⟨rfl, -⟩
        · exact Or.inl ⟨hm.target_lt hold, .step label hread hold hr⟩
        · exact absurd (lt_size_of_hasEdge hold) (Nat.not_lt_of_le hge)
        · exact absurd hold (hfinal _ _)
      · refine Or.inr (Or.inl ⟨hnew, ?_⟩)
        rcases ih with ⟨hlt, hread⟩ | ⟨-, u, v, rfl, hu, hv⟩ | ⟨rfl, -⟩
        · obtain rfl := hq.resolve_right (Nat.not_le_of_lt hlt)
          exact ⟨w, label.toList, rfl, hread, .step label .nil hedge hnew⟩
        · exact ⟨u, v ++ label.toList, by rw [List.append_assoc], hu, .step label hv hedge hnew⟩
        · rcases hq with heq | hge
          · exact absurd heq.symm hpx
          · exact absurd hx (Nat.not_lt_of_le hge)
    · -- the edge from the exit of the fragment
      refine Or.inr (Or.inr ⟨rfl, ?_⟩)
      rw [Option.map_eq_none_iff.1 hlabel, Option.toList_none, List.append_nil]
      rcases ih with ⟨hlt, hread⟩ | ⟨-, u, v, rfl, hu, hv⟩ | ⟨heq, -⟩
      · obtain rfl := h.exit.resolve_right (Nat.not_le_of_lt hlt)
        exact ⟨w, [], (List.append_nil w).symm, hread, h.nil_mem rfl⟩
      · exact ⟨u, v, rfl, hu, (h.reads v).1 hv⟩
      · exact absurd heq (h.exit_ne hx hpx)

/-- A fragment from `p` whose exit is joined to the final state `x`: the paths through it come to the
exit and to `x` as before, or by reading on from `p`. -/
theorem reads_join (hm : m.Bounded letters) {n p : Nat} (hentry : entry < m.size) (hp : p < m.size)
    (hx : x < m.size) (hpx : p ≠ x) (hfinal : m.Final x) (hn : n ≤ x)
    (h : IsFragment letters letter L m p (last, m₂)) (w : List σ) :
    ((m₂.addSilent last x).Reads letter n entry w x ↔ m.Reads letter n entry w x ∨
      ∃ u v, w = u ++ v ∧ m.Reads letter n entry u p ∧ v ∈ L) ∧
    ((m₂.addSilent last x).Reads letter n entry w last ↔
      ∃ u v, w = u ++ v ∧ m.Reads letter n entry u p ∧ v ∈ L) := by
  have hlast : last < m₂.size := h.exit_lt
  have hmono : ∀ {p label q}, m₂.HasEdge p label q → (m₂.addSilent last x).HasEdge p label q :=
    fun hedge => (hasEdge_addSilent hlast).2 (Or.inl hedge)
  have hthrough : ∀ {u v}, m.Reads letter n entry u p → v ∈ L →
      (m₂.addSilent last x).Reads letter n entry (u ++ v) last := by
    intro u v hu hv
    refine (hu.mono (fun hedge => hmono (h.extends_.mono hedge)) (Nat.le_refl n)).trans ?_
    exact ((h.reads v).2 hv).mono hmono (by omega)
  refine ⟨⟨?_, ?_⟩, ⟨?_, ?_⟩⟩
  · intro hpath
    rcases h.split_join hm hentry hx hpx hfinal hpath with ⟨-, hread⟩ | ⟨hge, -⟩ | ⟨-, hread⟩
    · exact Or.inl hread
    · omega
    · exact Or.inr hread
  · rintro (hread | ⟨u, v, rfl, hu, hv⟩)
    · exact hread.mono (fun hedge => hmono (h.extends_.mono hedge)) (Nat.le_refl n)
    · exact (hthrough hu hv).silent ((hasEdge_addSilent hlast).2 (Or.inr ⟨rfl, rfl, rfl⟩)) hn
  · intro hpath
    rcases h.split_join hm hentry hx hpx hfinal hpath with
      ⟨hlt, hread⟩ | ⟨-, u, v, rfl, hu, hv⟩ | ⟨heq, -⟩
    · obtain rfl := h.exit.resolve_right (Nat.not_le_of_lt hlt)
      exact ⟨w, [], (List.append_nil w).symm, hread, h.nil_mem rfl⟩
    · exact ⟨u, v, rfl, hu, (h.reads v).1 hv⟩
    · exact absurd heq (h.exit_ne hx hpx)
  · rintro ⟨u, v, rfl, hu, hv⟩
    exact hthrough hu hv

/-- An automaton to which fragments between `entry` and the exit `x` are being added, since it was
`m₀`. -/
structure Joining (letters : Nat) (m₀ m : Nfa) (entry x : Nat) : Prop where
  extends_ : Extends m₀ m entry
  bounded : m.Bounded letters
  entry_lt : entry < m₀.size
  exit_ge : m₀.size ≤ x
  exit_lt : x < m.size
  final : m.Final x

variable {m₀ : Nfa}

theorem Joining.entry_lt_size (h : Joining letters m₀ m entry x) : entry < m.size :=
  Nat.lt_of_lt_of_le h.entry_lt h.extends_.size_le

theorem Joining.entry_ne (h : Joining letters m₀ m entry x) : entry ≠ x :=
  Nat.ne_of_lt (Nat.lt_of_lt_of_le h.entry_lt h.exit_ge)

/-- A fragment can be joined to the exit, and another one can go on from where it ends. -/
theorem Joining.join (hm : Joining letters m₀ m entry x) {p : Nat}
    (hp : p = entry ∨ m₀.size ≤ p) (hpx : p ≠ x)
    (h : IsFragment letters letter L m p (last, m₂)) :
    Joining letters m₀ (m₂.addSilent last x) entry x ∧
      (last = entry ∨ m₀.size ≤ last) ∧ last ≠ x := by
  have hlast : last < m₂.size := h.exit_lt
  have hexit : last = p ∨ m.size ≤ last := h.exit
  have hle : m.size ≤ m₂.size := h.extends_.size_le
  have hx := hm.exit_lt
  have hsource : last = entry ∨ m₀.size ≤ last := by
    rcases hexit with rfl | hge
    · exact hp
    · exact Or.inr (Nat.le_trans hm.extends_.size_le hge)
  have hne : last ≠ x := h.exit_ne hx hpx
  refine ⟨?_, hsource, hne⟩
  refine
    { extends_ := (hm.extends_.trans hp h.extends_).addSilent hlast hsource hm.exit_ge,
      bounded := h.bounded.addSilent hlast (Nat.lt_of_lt_of_le hx hle), entry_lt := hm.entry_lt,
      exit_ge := hm.exit_ge, exit_lt := ?_, final := ?_ }
  · rw [size_addSilent]
    exact Nat.lt_of_lt_of_le hx hle
  · intro label q hedge
    rcases (hasEdge_addSilent hlast).1 hedge with hedge | ⟨heq, -⟩
    · rcases h.extends_.added hedge with hold | ⟨-, heq | hge⟩
      · exact hm.final _ _ hold
      · exact hpx heq.symm
      · omega
    · exact hne heq.symm

/-- The finished automaton has a fragment between the entry and the exit. -/
theorem Joining.isFragment (hm : Joining letters m₀ m entry x)
    (h : ∀ w, m.Reads letter m₀.size entry w x ↔ w ∈ L) :
    IsFragment letters letter L m₀ entry (x, m) where
  extends_ := hm.extends_
  bounded := hm.bounded
  stays := Or.inr hm.exit_ge
  exit_lt := hm.exit_lt
  reads := h

/-- Between one and `n` texts of a language. -/
def upTo (L : Language σ) : Nat → Language σ
  | 0 => 0
  | n + 1 => L + L * upTo L n

theorem mem_upTo {n : Nat} {w : List σ} : w ∈ upTo L n ↔ ∃ k, 1 ≤ k ∧ k ≤ n ∧ w ∈ L ^ k := by
  induction n generalizing w with
  | zero =>
    constructor
    · intro h
      exact absurd h (Language.notMem_zero w)
    · rintro ⟨k, h₁, h₂, -⟩
      omega
  | succ n ih =>
    rw [upTo, Language.mem_add, Language.mem_mul]
    constructor
    · rintro (h | ⟨a, ha, b, hb, rfl⟩)
      · exact ⟨1, Nat.le_refl 1, by omega, by rwa [pow_one]⟩
      · obtain ⟨k, h₁, h₂, hk⟩ := ih.1 hb
        refine ⟨k + 1, by omega, by omega, ?_⟩
        rw [pow_succ']
        exact Language.mem_mul.2 ⟨a, ha, b, hk, rfl⟩
    · rintro ⟨k, h₁, h₂, hk⟩
      obtain ⟨k, rfl⟩ : ∃ j, k = j + 1 := ⟨k - 1, by omega⟩
      rw [pow_succ', Language.mem_mul] at hk
      obtain ⟨a, ha, b, hb, rfl⟩ := hk
      rcases Nat.eq_zero_or_pos k with rfl | hpos
      · rw [pow_zero, Language.mem_one] at hb
        rw [hb, List.append_nil]
        exact Or.inl ha
      · exact Or.inr ⟨a, ha, b, ih.2 ⟨k, hpos, by omega, hb⟩, rfl⟩

/-- At least `min` texts of a language and at most `max`. -/
theorem mem_pow_mul_upTo {min max : Nat} {w : List σ} : w ∈ L ^ min * (1 + upTo L (max - min)) ↔
    ∃ k, min ≤ k ∧ k ≤ Nat.max min max ∧ w ∈ L ^ k := by
  rw [Language.mem_mul]
  constructor
  · rintro ⟨a, ha, b, hb | hb, rfl⟩
    · rw [(Language.mem_one b).1 hb, List.append_nil]
      exact ⟨min, Nat.le_refl _, Nat.le_max_left _ _, ha⟩
    · obtain ⟨j, -, hj, hb⟩ := mem_upTo.1 hb
      refine ⟨min + j, Nat.le_add_right _ _, ?_, ?_⟩
      · have : min + j ≤ max ∨ j = 0 := by omega
        rcases this with hle | rfl
        · exact Nat.le_trans hle (Nat.le_max_right _ _)
        · exact Nat.le_max_left _ _
      · rw [pow_add]
        exact Language.mem_mul.2 ⟨a, ha, b, hb, rfl⟩
  · rintro ⟨k, hmin, hmax, hk⟩
    obtain ⟨j, rfl⟩ := Nat.exists_eq_add_of_le hmin
    have hj : j ≤ max - min := by
      rcases Nat.lt_or_ge max min with hlt | hge
      · rw [show Nat.max min max = min from Nat.max_eq_left (Nat.le_of_lt hlt)] at hmax
        omega
      · rw [show Nat.max min max = max from Nat.max_eq_right hge] at hmax
        omega
    rw [pow_add, Language.mem_mul] at hk
    obtain ⟨a, ha, b, hb, rfl⟩ := hk
    refine ⟨a, ha, b, ?_, rfl⟩
    rcases Nat.eq_zero_or_pos j with rfl | hpos
    · rw [pow_zero] at hb
      exact Or.inl hb
    · exact Or.inr (mem_upTo.2 ⟨j, hpos, hj, hb⟩)

/-- Copies one after the other, each joined to the exit. -/
theorem reads_addShortcuts {inner : Builder} (h : Builds letters letter L inner) (n : Nat)
    {p : Nat} (hm : Joining letters m₀ m entry x) (hlt : p < m.size)
    (hp : p = entry ∨ m₀.size ≤ p) (hpx : p ≠ x) :
    Joining letters m₀ (addShortcuts inner x n p m) entry x ∧
      ∀ w, (addShortcuts inner x n p m).Reads letter m₀.size entry w x ↔
        m.Reads letter m₀.size entry w x ∨
          ∃ u v, w = u ++ v ∧ m.Reads letter m₀.size entry u p ∧ v ∈ upTo L n := by
  induction n generalizing m p with
  | zero =>
    refine ⟨hm, fun w => (or_iff_left ?_).symm⟩
    rintro ⟨u, v, -, -, hv⟩
    exact Language.notMem_zero v hv
  | succ n ih =>
    have hinner := h m p hm.bounded hlt
    have hstep : addShortcuts inner x (n + 1) p m =
        addShortcuts inner x n (inner p m).1 ((inner p m).2.addSilent (inner p m).1 x) := rfl
    rw [hstep]
    generalize inner p m = r at hinner ⊢
    obtain ⟨last, m₂⟩ := r
    obtain ⟨hjoin, hlast, hne⟩ := hm.join hp hpx hinner
    have hjoined := reads_join hm.bounded (n := m₀.size) hm.entry_lt_size hlt hm.exit_lt hpx hm.final
      hm.exit_ge hinner
    obtain ⟨hdone, hreads⟩ := ih hjoin (by rw [size_addSilent]; exact hinner.exit_lt) hlast hne
    refine ⟨hdone, fun w => ?_⟩
    rw [hreads, (hjoined w).1, or_assoc]
    refine or_congr_right ?_
    constructor
    · rintro (⟨u, v, rfl, hu, hv⟩ | ⟨u, v, rfl, hu, hv⟩)
      · exact ⟨u, v, rfl, hu, Or.inl hv⟩
      · obtain ⟨u', v', rfl, hu', hv'⟩ := (hjoined u).2.1 hu
        exact ⟨u', v' ++ v, List.append_assoc _ _ _, hu',
          Or.inr (Language.mem_mul.2 ⟨v', hv', v, hv, rfl⟩)⟩
    · rintro ⟨u, v, rfl, hu, hv | hv⟩
      · exact Or.inl ⟨u, v, rfl, hu, hv⟩
      · obtain ⟨a, ha, b, hb, rfl⟩ := Language.mem_mul.1 hv
        exact Or.inr ⟨u ++ a, b, (List.append_assoc _ _ _).symm,
          (hjoined _).2.2 ⟨u, a, rfl, hu, ha⟩, hb⟩

/-- A new exit behind a silent edge from the entry. -/
theorem joining_enter (letter : σ → Nat) (hm : m.Bounded letters) (hentry : entry < m.size) :
    Joining letters m (enter m entry) entry m.size ∧
      (∀ w : List σ, (enter m entry).Reads letter m.size entry w m.size ↔ w = []) := by
  refine ⟨{ extends_ := extends_enter hentry, bounded := bounded_enter hm hentry,
            entry_lt := hentry, exit_ge := Nat.le_refl _,
            exit_lt := by rw [size_enter]; omega, final := ?_ }, ?_⟩
  · intro label q hedge
    rcases (hasEdge_enter hentry).1 hedge with hold | ⟨heq, -⟩
    · exact Nat.lt_irrefl _ (lt_size_of_hasEdge hold)
    · omega
  · intro w
    constructor
    · intro h
      have hinv : ∀ {w : List σ} {q}, (enter m entry).Reads letter m.size entry w q → w = [] := by
        intro w q h
        induction h with
        | nil => rfl
        | step label _ hedge hr ih =>
          rcases (hasEdge_enter hentry).1 hedge with hold | ⟨-, hlabel, -⟩
          · exact absurd (hm.target_lt hold) (Nat.not_lt_of_le hr)
          · rw [ih, Option.map_eq_none_iff.1 hlabel]
            rfl
      exact hinv h
    · rintro rfl
      exact Reads.nil.silent ((hasEdge_enter hentry).2 (Or.inr ⟨rfl, rfl, rfl⟩)) (Nat.le_refl _)

theorem builds_addRepeated {inner : Builder} (h : Builds letters letter L inner) (min : Nat)
    (max : Option Nat) : Builds letters letter (match max with
      | none => L ^ min * L∗
      | some max => {w | ∃ k, min ≤ k ∧ k ≤ Nat.max min max ∧ w ∈ L ^ k})
      (addRepeated inner min max) := by
  intro m entry hm hentry
  have hcopies := builds_addCopies h min m entry hm hentry
  unfold addRepeated
  generalize addCopies inner min entry m = r at hcopies ⊢
  obtain ⟨last, m₁⟩ := r
  have hbounded : m₁.Bounded letters := hcopies.bounded
  have hlast : last < m₁.size := hcopies.exit_lt
  cases max with
  | none => exact hcopies.seq hentry (builds_addLoop h m₁ last hbounded hlast)
  | some max =>
    obtain ⟨hjoin, hnil⟩ := joining_enter letter hbounded hlast
    obtain ⟨hdone, hreads⟩ := reads_addShortcuts h (max - min) hjoin
      (Nat.lt_of_lt_of_le hlast hjoin.extends_.size_le) (Or.inl rfl) hjoin.entry_ne
    have hfragment : IsFragment letters letter (1 + upTo L (max - min)) m₁ last
        (m₁.size, addShortcuts inner m₁.size (max - min) last (enter m₁ last)) := by
      refine hdone.isFragment fun w => ?_
      rw [hreads, hnil, Language.mem_add, Language.mem_one]
      refine or_congr_right ?_
      constructor
      · rintro ⟨u, v, rfl, hu, hv⟩
        rw [(hu.eq_nil hlast).1]
        exact hv
      · intro hw
        exact ⟨[], w, rfl, .nil, hw⟩
    have hlang : L ^ min * (1 + upTo L (max - min)) =
        {w | ∃ k, min ≤ k ∧ k ≤ Nat.max min max ∧ w ∈ L ^ k} := by
      ext w
      exact mem_pow_mul_upTo
    have := hcopies.seq hentry hfragment
    rw [hlang] at this
    exact this

/-! ### One character -/

/-- The letters from that of the one bound of a range up to that of the other. -/
def lettersOf (a : Alphabet) (r : CodeRange) : List Nat :=
  List.range' (a.letterOf r.1) (a.letterOf r.2 - a.letterOf r.1)

theorem foldl_addLetters (a : Alphabet) {p q : Nat} (hp : p < m.size) (ranges : List CodeRange) :
    (ranges.foldl (fun m r => m.addLetters p q (lettersOf a r)) m).size = m.size ∧
    (ranges.foldl (fun m r => m.addLetters p q (lettersOf a r)) m).accepts = m.accepts ∧
    ∀ {p' label q'}, (ranges.foldl (fun m r => m.addLetters p q (lettersOf a r)) m).HasEdge
      p' label q' ↔ m.HasEdge p' label q' ∨
        p' = p ∧ (∃ r ∈ ranges, ∃ b ∈ lettersOf a r, label = some b) ∧ q' = q := by
  induction ranges generalizing m with
  | nil => exact ⟨rfl, rfl, fun {p' label q'} => by simp⟩
  | cons r ranges ih =>
    obtain ⟨hsize, haccepts, hedge⟩ := addLetters_spec (q := q) hp (lettersOf a r)
    obtain ⟨hsize', haccepts', hedge'⟩ := ih (m := m.addLetters p q (lettersOf a r))
      (by rwa [hsize])
    refine ⟨hsize'.trans hsize, haccepts'.trans haccepts, fun {p' label q'} => ?_⟩
    refine hedge'.trans ?_
    rw [hedge, List.exists_mem_cons_iff]
    constructor
    · rintro ((h | ⟨rfl, h, rfl⟩) | ⟨rfl, h, rfl⟩)
      · exact Or.inl h
      · exact Or.inr ⟨rfl, Or.inl h, rfl⟩
      · exact Or.inr ⟨rfl, Or.inr h, rfl⟩
    · rintro (h | ⟨rfl, h | h, rfl⟩)
      · exact Or.inl (Or.inl h)
      · exact Or.inl (Or.inr ⟨rfl, h, rfl⟩)
      · exact Or.inr ⟨rfl, h, rfl⟩

theorem mem_lettersOf {a : Alphabet} {r : CodeRange} {b : Nat} :
    b ∈ lettersOf a r ↔ a.letterOf r.1 ≤ b ∧ b < a.letterOf r.2 := by
  rw [lettersOf, List.mem_range'_1]
  omega

/-- The symbols whose letters lie in one of the ranges. -/
def InRanges (a : Alphabet) (letter : σ → Nat) (ranges : List CodeRange) (c : σ) : Prop :=
  ∃ r ∈ ranges, a.letterOf r.1 ≤ letter c ∧ letter c < a.letterOf r.2

theorem builds_addLeaf {a : Alphabet} (ha : a.size ≤ letters) (ranges : List CodeRange) :
    Builds letters letter (Regex.one (InRanges a letter ranges)) (addLeaf a ranges) := by
  intro m entry hm hentry
  obtain ⟨hsize, haccepts, hedge⟩ := foldl_addLetters (m := m.addState) (p := entry) (q := m.size) a
    (by rw [size_addState]; omega) ranges
  have hadd : addLeaf a ranges entry m =
      (m.size, ranges.foldl (fun m' r => m'.addLetters entry m.size (lettersOf a r)) m.addState) :=
    rfl
  rw [hadd]
  generalize ranges.foldl (fun m' r => m'.addLetters entry m.size (lettersOf a r)) m.addState = m'
    at hsize haccepts hedge ⊢
  simp only [hasEdge_addState] at hedge
  rw [size_addState] at hsize
  have hext : Extends m m' entry :=
    { size_le := by omega
      accepts := haccepts
      mono := fun h => hedge.2 (Or.inl h)
      added := fun h => by
        rcases hedge.1 h with hold | ⟨rfl, -, rfl⟩
        · exact Or.inl hold
        · exact Or.inr ⟨Nat.le_refl _, Or.inl rfl⟩ }
  have hbounded : m'.Bounded letters :=
    { target_lt := fun h => by
        rcases hedge.1 h with hold | ⟨-, -, rfl⟩
        · have := hm.target_lt hold
          omega
        · omega
      letter_lt := fun h => by
        rcases hedge.1 h with hold | ⟨-, ⟨r, -, b', hb', heq⟩, -⟩
        · exact hm.letter_lt hold
        · rw [Option.some.inj heq]
          have hle := Nat.le_trans (a.letterOf_le_size r.2) ha
          exact Nat.lt_of_lt_of_le (mem_lettersOf.1 hb').2 hle }
  refine
    { extends_ := hext, bounded := hbounded, stays := Or.inr (Nat.le_refl _), exit_lt := ?_,
      reads := ?_ }
  · simp only
    omega
  · intro w
    constructor
    · -- the only path that gets away from the entry reads one symbol
      have hinv : ∀ {w : List σ} {q}, m'.Reads letter m.size entry w q →
          (w = [] ∧ q = entry) ∨ (q = m.size ∧ w ∈ Regex.one (InRanges a letter ranges)) := by
        intro w q h
        induction h with
        | nil => exact Or.inl ⟨rfl, rfl⟩
        | step label _ h hr ih =>
          rcases hedge.1 h with hold | ⟨rfl, ⟨r, hr', b, hb, hlabel⟩, rfl⟩
          · exact absurd (hm.target_lt hold) (Nat.not_lt_of_le hr)
          · obtain ⟨c, rfl, rfl⟩ := Option.map_eq_some_iff.1 hlabel
            rcases ih with ⟨rfl, -⟩ | ⟨heq, -⟩
            · exact Or.inr ⟨rfl, c, ⟨r, hr', mem_lettersOf.1 hb⟩, rfl⟩
            · omega
      intro h
      rcases hinv h with ⟨-, heq⟩ | ⟨-, hw⟩
      · exact absurd heq (Nat.ne_of_gt hentry)
      · exact hw
    · rintro ⟨c, ⟨r, hr, hc⟩, rfl⟩
      exact Reads.nil.symbol (hedge.2 (Or.inr ⟨rfl, ⟨r, hr, _, mem_lettersOf.2 hc, rfl⟩, rfl⟩))
        (Nat.le_refl _)

/-! ### All expressions -/

/-- The symbols whose letters lie in one of the ranges of a one-character expression. -/
def MatchesLetter (a : Alphabet) (letter : σ → Nat) (r : Regex) : σ → Prop :=
  InRanges a letter (r.charRanges.getD [])

/-- A new exit without edges. -/
theorem joining_addState (letter : σ → Nat) (hm : m.Bounded letters) (hentry : entry < m.size) :
    Joining letters m m.addState entry m.size ∧
      ∀ w : List σ, ¬ m.addState.Reads letter m.size entry w m.size := by
  refine ⟨{ extends_ := (Extends.refl m entry).addState, bounded := hm.addState,
            entry_lt := hentry, exit_ge := Nat.le_refl _,
            exit_lt := by rw [size_addState]; omega, final := ?_ }, ?_⟩
  · intro label q hedge
    exact Nat.lt_irrefl _ (lt_size_of_hasEdge (hasEdge_addState.1 hedge))
  · intro w h
    generalize hq : m.size = q at h
    cases h with
    | nil => omega
    | step label _ hedge _ =>
      have := hm.target_lt (hasEdge_addState.1 hedge)
      omega

mutual

/-- The fragment of an expression reads its language, where the leaves match what the letters of their
ranges tell. -/
theorem builds_add {a : Alphabet} (ha : a.size ≤ letters) : ∀ r : Regex,
    Builds letters letter (Regex.langOver (MatchesLetter a letter) r) (add a r)
  | .empty => by
    rw [add, Regex.langOver]
    exact fun m entry hm hentry => isFragment_nil hm hentry
  | .any => by
    rw [add, Regex.langOver]
    exact builds_addLeaf ha _
  | .char c => by
    rw [add, Regex.langOver]
    exact builds_addLeaf ha _
  | .set negated items => by
    rw [add, Regex.langOver]
    exact builds_addLeaf ha _
  | .cls k => by
    rw [add, Regex.langOver]
    exact builds_addLeaf ha _
  | .alt rs => by
    intro m entry hm hentry
    rw [add, Regex.langOver]
    obtain ⟨hjoin, hnone⟩ := joining_addState letter hm hentry
    obtain ⟨hdone, hreads⟩ := joins_addAlternatives ha rs hjoin
    refine hdone.isFragment fun w => ?_
    rw [hreads]
    exact or_iff_right (hnone w)
  | .concat rs => by
    rw [add, Regex.langOver]
    exact builds_addSequence ha rs
  | .optional r => by
    rw [add, Regex.langOver]
    exact builds_addOptional (builds_add ha r)
  | .many r => by
    rw [add, Regex.langOver]
    exact builds_addLoop (builds_add ha r)
  | .many1 r => by
    rw [add, Regex.langOver]
    exact builds_addLoop1 (builds_add ha r)
  | .repeated r min none => by
    rw [add, Regex.langOver]
    exact builds_addRepeated (builds_add ha r) min none
  | .repeated r min (some max) => by
    rw [add, Regex.langOver]
    exact builds_addRepeated (builds_add ha r) min (some max)

theorem joins_addAlternatives {a : Alphabet} (ha : a.size ≤ letters) : ∀ rs : List Regex,
    ∀ {m₀ m : Nfa} {entry x : Nat}, Joining letters m₀ m entry x →
      Joining letters m₀ (addAlternatives a rs entry x m) entry x ∧
        ∀ w, (addAlternatives a rs entry x m).Reads letter m₀.size entry w x ↔
          m.Reads letter m₀.size entry w x ∨ w ∈ Regex.altOver (MatchesLetter a letter) rs
  | [], m₀, m, entry, x, hm => by
    rw [addAlternatives, Regex.altOver]
    exact ⟨hm, fun w => (or_iff_left (Language.notMem_zero w)).symm⟩
  | r :: rs, m₀, m, entry, x, hm => by
    have hfirst := builds_add ha r m entry hm.bounded hm.entry_lt_size
    rw [addAlternatives, Regex.altOver]
    generalize add a r entry m = made at hfirst ⊢
    obtain ⟨last, m₂⟩ := made
    obtain ⟨hjoin, -⟩ := hm.join (Or.inl rfl) hm.entry_ne hfirst
    obtain ⟨hdone, hreads⟩ := joins_addAlternatives ha rs hjoin
    refine ⟨hdone, fun w => ?_⟩
    have hjoined := (reads_join hm.bounded hm.entry_lt_size hm.entry_lt_size hm.exit_lt hm.entry_ne
      hm.final hm.exit_ge hfirst w).1
    rw [hreads, hjoined, Language.mem_add, or_assoc]
    refine or_congr_right (or_congr_left ?_)
    constructor
    · rintro ⟨u, v, rfl, hu, hv⟩
      rw [(hu.eq_nil hm.entry_lt).1]
      exact hv
    · intro hw
      exact ⟨[], w, rfl, .nil, hw⟩

theorem builds_addSequence {a : Alphabet} (ha : a.size ≤ letters) : ∀ rs : List Regex,
    Builds letters letter (Regex.concatOver (MatchesLetter a letter) rs) (addSequence a rs)
  | [] => by
    rw [addSequence, Regex.concatOver]
    exact fun m entry hm hentry => isFragment_nil hm hentry
  | r :: rs => by
    intro m entry hm hentry
    have hfirst := builds_add ha r m entry hm hentry
    rw [addSequence, Regex.concatOver]
    exact hfirst.seq hentry
      (builds_addSequence ha rs _ _ hfirst.bounded hfirst.exit_lt)

end

/-- The ranges begin and end at bounds of the alphabet. -/
def AtBounds (a : Alphabet) (ranges : List CodeRange) : Prop :=
  ∀ range ∈ ranges, range.1 ∈ a.bounds.toList ∧ range.2 ∈ a.bounds.toList

/-- The alphabet tells apart what the leaves tell apart: a one-character expression whose ranges
begin and end at bounds of the alphabet matches the symbols whose letters lie in its ranges. -/
def Separates (a : Alphabet) (letter : σ → Nat) (leaf : Regex → σ → Prop) : Prop :=
  ∀ r ranges, r.charRanges = some ranges → AtBounds a ranges →
    ∀ c, leaf r c ↔ InRanges a letter ranges c

/-- Where the alphabet tells apart what the leaves tell apart, the letters make no difference. -/
theorem langOver_matchesLetter {a : Alphabet} {leaf : Regex → σ → Prop}
    (hleaf : Separates a letter leaf) {r : Regex} (hr : AtBounds a r.leafRanges) :
    Regex.langOver (MatchesLetter a letter) r = Regex.langOver leaf r := by
  have hmap : Regex.LeavesMap
      (fun range => range.1 ∈ a.bounds.toList ∧ range.2 ∈ a.bounds.toList) id leaf
      (MatchesLetter a letter) := by
    intro r ranges hr hranges c
    rw [MatchesLetter, hr, Option.getD_some, ← hleaf r ranges hr hranges]
    exact (exists_eq_right (p := leaf r)).symm
  rw [Regex.langOver_map hmap r hr, Language.map_id]

end Fragment

end ShiftReduce
