import Mathlib.Algebra.Order.BigOperators.Group.List
import Mathlib.Algebra.Order.Group.Nat
import Mathlib.Data.List.Induction
import ShiftReduce.Automaton.Nfa
import ShiftReduce.Proofs.Reach
import ShiftReduce.Proofs.Automaton.Recognizer

/-!
# Paths of an automaton

`Nfa.HasEdge` is the edge relation, with one lemma for each way to build an automaton. `Nfa.Reads`
are the paths: the symbols read on the way can be of any kind, as long as each has a letter. A path
can be confined to edges that lead to states from `n` on, which is how the part of an automaton that
was added later is told from the rest.

The set of states after reading a text consists of the states to which there is a path that reads it
(`mem_setAfter`), and what the automaton accepts after the text is what this set accepts
(`acceptsAfter_recognizer`).
-/

namespace ShiftReduce

namespace Nfa

variable {σ : Type}

/-- There is an edge from `p` to `q` with the given label, none if it is silent. -/
def HasEdge (m : Nfa) (p : Nat) (label : Option Nat) (q : Nat) : Prop := ⟨label, q⟩ ∈ m.out p

/-- All edges lead to states of the automaton, and their letters are below `letters`. -/
structure Bounded (letters : Nat) (m : Nfa) : Prop where
  target_lt : ∀ {p label q}, m.HasEdge p label q → q < m.size
  letter_lt : ∀ {p a q}, m.HasEdge p (some a) q → a < letters

/-- All edges lead to states of the automaton. -/
def Closed (m : Nfa) : Prop := ∀ p label q, m.HasEdge p label q → q < m.size

theorem lt_size_of_hasEdge {m : Nfa} {p : Nat} {label : Option Nat} {q : Nat}
    (h : m.HasEdge p label q) : p < m.size := by
  by_contra hp
  rw [HasEdge, out, Array.getElem?_eq_none (Nat.le_of_not_lt hp)] at h
  exact absurd h List.not_mem_nil

theorem mem_letters {m : Nfa} {p a : Nat} : a ∈ m.letters p ↔ ∃ q, m.HasEdge p (some a) q := by
  rw [letters, List.mem_filterMap]
  constructor
  · rintro ⟨⟨label, q⟩, he, rfl⟩
    exact ⟨q, he⟩
  · rintro ⟨q, hedge⟩
    exact ⟨_, hedge, rfl⟩

/-- An automaton has finitely many edges, so there are bounds on their letters. -/
theorem Closed.exists_bounded {m : Nfa} (h : m.Closed) (n : Nat) :
    ∃ letters, n ≤ letters ∧ m.Bounded letters := by
  refine ⟨n + ((List.range m.size).flatMap m.letters).sum + 1, by omega, ⟨h _ _ _, ?_⟩⟩
  intro p a q hedge
  have hmem : a ∈ (List.range m.size).flatMap m.letters :=
    List.mem_flatMap.2 ⟨p, List.mem_range.2 (lt_size_of_hasEdge hedge), mem_letters.2 ⟨q, hedge⟩⟩
  have := List.le_sum_of_mem hmem
  omega

/-! ### Building -/

@[simp] theorem size_addState (m : Nfa) : m.addState.size = m.size + 1 := by
  simp [addState, size]

@[simp] theorem size_addEdge (m : Nfa) (p : Nat) (e : Edge) : (m.addEdge p e).size = m.size := by
  simp [addEdge, size]

@[simp] theorem size_addSilent (m : Nfa) (p q : Nat) : (m.addSilent p q).size = m.size :=
  size_addEdge m p _

@[simp] theorem hasEdge_addState {m : Nfa} {p : Nat} {label : Option Nat} {q : Nat} :
    m.addState.HasEdge p label q ↔ m.HasEdge p label q := by
  rw [HasEdge, HasEdge, out, out, addState, Array.getElem?_push]
  split
  · next hp =>
    rw [hp, Array.getElem?_eq_none (Nat.le_refl _)]
    rfl
  · rfl

theorem hasEdge_addEdge {m : Nfa} {p : Nat} (hp : p < m.size) {label : Option Nat} {q : Nat}
    {p' : Nat} {label' : Option Nat} {q' : Nat} :
    (m.addEdge p ⟨label, q⟩).HasEdge p' label' q' ↔
      m.HasEdge p' label' q' ∨ p' = p ∧ label' = label ∧ q' = q := by
  rw [HasEdge, HasEdge, out, out, addEdge, Array.getElem?_modify]
  split
  · next hpp =>
    subst hpp
    rw [Array.getElem?_eq_getElem hp]
    simp only [Option.map_some, Option.getD_some, true_and]
    split
    · next hmem =>
      refine (or_iff_left_of_imp ?_).symm
      rintro ⟨rfl, rfl⟩
      exact hmem
    · rw [List.mem_append, List.mem_singleton, Edge.mk.injEq]
  · next hpp =>
    refine (or_iff_left ?_).symm
    rintro ⟨rfl, -⟩
    exact hpp rfl

theorem hasEdge_addSilent {m : Nfa} {p q : Nat} (hp : p < m.size) {p' : Nat} {label : Option Nat}
    {q' : Nat} : (m.addSilent p q).HasEdge p' label q' ↔
      m.HasEdge p' label q' ∨ p' = p ∧ label = none ∧ q' = q := hasEdge_addEdge hp

theorem addLetters_spec {m : Nfa} {p q : Nat} (hp : p < m.size) (letters : List Nat) :
    (m.addLetters p q letters).size = m.size ∧ (m.addLetters p q letters).accepts = m.accepts ∧
      ∀ {p' label q'}, (m.addLetters p q letters).HasEdge p' label q' ↔
        m.HasEdge p' label q' ∨ p' = p ∧ (∃ a ∈ letters, label = some a) ∧ q' = q := by
  induction letters generalizing m with
  | nil => exact ⟨rfl, rfl, fun {p' label q'} => by simp [addLetters]⟩
  | cons a letters ih =>
    obtain ⟨hsize, haccepts, hedge⟩ := ih (m := m.addEdge p ⟨some a, q⟩) (by rwa [size_addEdge])
    refine ⟨hsize.trans (size_addEdge m p _), haccepts, fun {p' label q'} => ?_⟩
    refine hedge.trans ?_
    rw [hasEdge_addEdge hp, List.exists_mem_cons_iff]
    constructor
    · rintro ((h | ⟨rfl, h, rfl⟩) | ⟨rfl, h, rfl⟩)
      · exact Or.inl h
      · exact Or.inr ⟨rfl, Or.inl h, rfl⟩
      · exact Or.inr ⟨rfl, Or.inr h, rfl⟩
    · rintro (h | ⟨rfl, h | h, rfl⟩)
      · exact Or.inl (Or.inl h)
      · exact Or.inl (Or.inr ⟨rfl, h, rfl⟩)
      · exact Or.inr ⟨rfl, h, rfl⟩

/-! ### Paths -/

/-- There is a path from `p` to `q` that reads the given symbols, all of whose edges lead to states
from `n` on. -/
inductive Reads (m : Nfa) (letter : σ → Nat) (n p : Nat) : List σ → Nat → Prop
  | nil : Reads m letter n p [] p
  | step {w : List σ} {q r : Nat} (label : Option σ) (h : Reads m letter n p w q)
    (hedge : m.HasEdge q (label.map letter) r) (hr : n ≤ r) : Reads m letter n p (w ++ label.toList) r

variable {m m' : Nfa} {letter : σ → Nat} {n p q r : Nat}

theorem Reads.silent {w : List σ} (h : m.Reads letter n p w q) (hedge : m.HasEdge q none r)
    (hr : n ≤ r) : m.Reads letter n p w r := by
  have := Reads.step none h hedge hr
  rwa [Option.toList_none, List.append_nil] at this

theorem Reads.symbol {w : List σ} {c : σ} (h : m.Reads letter n p w q)
    (hedge : m.HasEdge q (some (letter c)) r) (hr : n ≤ r) : m.Reads letter n p (w ++ [c]) r :=
  .step (some c) h hedge hr

theorem Reads.trans {u v : List σ} (h₁ : m.Reads letter n p u q) (h₂ : m.Reads letter n q v r) :
    m.Reads letter n p (u ++ v) r := by
  induction h₂ with
  | nil => rwa [List.append_nil]
  | step label _ hedge hr ih =>
    rw [← List.append_assoc]
    exact .step label ih hedge hr

/-- A path is still there in a larger automaton, and confined to fewer states it is one. -/
theorem Reads.mono (hmono : ∀ {p label q}, m.HasEdge p label q → m'.HasEdge p label q) {n' : Nat}
    (hn : n' ≤ n) {w : List σ} (h : m.Reads letter n p w q) : m'.Reads letter n' p w q := by
  induction h with
  | nil => exact .nil
  | step label _ hedge hr ih => exact .step label ih (hmono hedge) (Nat.le_trans hn hr)

/-- Marking a state does not change the paths. -/
theorem reads_markAccept {x : Nat} {b : Accept} {w : List σ} :
    (m.markAccept x b).Reads letter n p w q ↔ m.Reads letter n p w q := by
  constructor
  · refine Reads.mono ?_ (Nat.le_refl n)
    exact fun hedge => hedge
  · refine Reads.mono ?_ (Nat.le_refl n)
    exact fun hedge => hedge

/-- A path stays where it is or leads to one of the states it is confined to. -/
theorem Reads.eq_or_le {w : List σ} (h : m.Reads letter n p w q) : (w = [] ∧ q = p) ∨ n ≤ q := by
  cases h with
  | nil => exact Or.inl ⟨rfl, rfl⟩
  | step _ _ _ hr => exact Or.inr hr

/-- A path that comes back to a state outside is empty. -/
theorem Reads.eq_nil {w : List σ} (h : m.Reads letter n p w q) (hq : q < n) : w = [] ∧ q = p :=
  h.eq_or_le.resolve_right (Nat.not_le_of_lt hq)

/-! ### Sets of states -/

theorem mem_silentTargets : q ∈ m.silentTargets p ↔ m.HasEdge p none q := by
  rw [silentTargets, List.mem_filterMap, HasEdge]
  constructor
  · rintro ⟨⟨label, target⟩, he, hq⟩
    split at hq
    · next hlabel =>
      obtain rfl : label = none := hlabel
      rw [← Option.some.inj hq]
      exact he
    · exact absurd hq (by simp)
  · intro h
    exact ⟨_, h, rfl⟩

theorem mem_letterTargets {a : Nat} : q ∈ m.letterTargets p a ↔ m.HasEdge p (some a) q := by
  rw [letterTargets, List.mem_filterMap, HasEdge]
  constructor
  · rintro ⟨⟨label, target⟩, he, hq⟩
    split at hq
    · next hlabel =>
      obtain rfl : label = some a := hlabel
      rw [← Option.some.inj hq]
      exact he
    · exact absurd hq (by simp)
  · intro h
    exact ⟨_, h, if_pos rfl⟩

theorem reads_nil_iff : m.Reads letter 0 p ([] : List σ) q ↔ Leads m.silentTargets p q := by
  constructor
  · intro h
    generalize hw : ([] : List σ) = w at h
    induction h with
    | nil => exact .refl
    | @step w q r label _ hedge _ ih =>
      obtain ⟨hnil, hlabel⟩ := List.append_eq_nil_iff.1 hw.symm
      cases label with
      | none => exact (ih hnil.symm).tail (mem_silentTargets.2 hedge)
      | some c => exact absurd hlabel (List.cons_ne_nil _ _)
  · intro h
    induction h with
    | refl => exact .nil
    | tail _ hstep ih => exact ih.silent (mem_silentTargets.1 hstep) (Nat.zero_le _)

theorem reads_append_singleton_iff {w : List σ} {c : σ} : m.Reads letter 0 p (w ++ [c]) r ↔
    ∃ q q', m.Reads letter 0 p w q ∧ m.HasEdge q (some (letter c)) q' ∧
      m.Reads letter 0 q' ([] : List σ) r := by
  constructor
  · intro h
    generalize hw : w ++ [c] = v at h
    induction h with
    | nil => exact absurd hw (by simp)
    | @step v q r label hpath hedge hr ih =>
      cases label with
      | none =>
        rw [Option.toList_none, List.append_nil] at hw
        obtain ⟨q₀, q', hread, hletter, hsilent⟩ := ih hw
        exact ⟨q₀, q', hread, hletter, hsilent.silent hedge hr⟩
      | some d =>
        obtain ⟨rfl, hcd⟩ := List.append_inj' hw rfl
        obtain rfl : c = d := List.singleton_inj.1 hcd
        exact ⟨q, r, hpath, hedge, .nil⟩
  · rintro ⟨q, q', hread, hletter, hsilent⟩
    have := (hread.symbol hletter (Nat.zero_le _)).trans hsilent
    rwa [List.append_nil] at this

theorem mem_closure {letters : Nat} (hm : m.Bounded letters) {states : IdSet}
    (hstates : states.Below m.size) :
    q ∈ m.closure states ↔ ∃ p ∈ states, Leads m.silentTargets p q :=
  mem_reach (fun _ _ _ hw => hm.target_lt (mem_silentTargets.1 hw)) hstates

theorem below_closure {letters : Nat} (hm : m.Bounded letters) {states : IdSet}
    (hstates : states.Below m.size) : (m.closure states).Below m.size := by
  intro q hq
  obtain ⟨p, hp, hpath⟩ := (mem_closure hm hstates).1 hq
  cases hpath with
  | refl => exact hstates _ hp
  | tail _ hstep => exact hm.target_lt (mem_silentTargets.1 hstep)

/-- The states after a letter, before the silent edges. -/
theorem mem_targets {states : IdSet} {a : Nat} :
    q ∈ IdSet.ofList (states.toList.flatMap fun p => m.letterTargets p a) ↔
      ∃ p ∈ states, m.HasEdge p (some a) q := by
  simp only [IdSet.mem_ofList, List.mem_flatMap, IdSet.mem_toList, mem_letterTargets]

theorem below_targets {letters : Nat} (hm : m.Bounded letters) {states : IdSet} {a : Nat} :
    (IdSet.ofList (states.toList.flatMap fun p => m.letterTargets p a)).Below m.size := by
  intro q hq
  obtain ⟨p, -, hedge⟩ := mem_targets.1 hq
  exact hm.target_lt hedge

theorem mem_step {letters : Nat} (hm : m.Bounded letters) {states : IdSet} {a : Nat} :
    r ∈ m.step states a ↔ ∃ p ∈ states, ∃ q, m.HasEdge p (some a) q ∧
      Leads m.silentTargets q r := by
  rw [step, mem_closure hm (below_targets hm)]
  constructor
  · rintro ⟨q, hq, hpath⟩
    obtain ⟨p, hp, hedge⟩ := mem_targets.1 hq
    exact ⟨p, hp, q, hedge, hpath⟩
  · rintro ⟨p, hp, q, hedge, hpath⟩
    exact ⟨q, mem_targets.2 ⟨p, hp, hedge⟩, hpath⟩

theorem below_step {letters : Nat} (hm : m.Bounded letters) (states : IdSet) (a : Nat) :
    (m.step states a).Below m.size := below_closure hm (below_targets hm)

/-- The set of states after reading some letters. -/
def setAfter (m : Nfa) (letters : List Nat) : IdSet := letters.foldl m.step m.startSet

theorem below_startSet {letters : Nat} (hm : m.Bounded letters) (hpos : 0 < m.size) :
    m.startSet.Below m.size := by
  refine below_closure hm ?_
  intro i hi
  rw [IdSet.mem_single.1 hi]
  exact hpos

/-- The states after a text are those to which there is a path that reads it. -/
theorem mem_setAfter {letters : Nat} (hm : m.Bounded letters) (hpos : 0 < m.size) {w : List σ} :
    q ∈ m.setAfter (w.map letter) ↔ m.Reads letter 0 0 w q := by
  induction w using List.reverseRecOn generalizing q with
  | nil =>
    have hsingle : (IdSet.single 0).Below m.size := by
      intro i hi
      rw [IdSet.mem_single.1 hi]
      exact hpos
    rw [List.map_nil, setAfter, List.foldl_nil, startSet, mem_closure hm hsingle, reads_nil_iff]
    simp
  | append_singleton w c ih =>
    rw [List.map_append, List.map_singleton, setAfter, List.foldl_append, List.foldl_cons,
      List.foldl_nil, mem_step hm, reads_append_singleton_iff]
    constructor
    · rintro ⟨p, hp, q', hedge, hpath⟩
      exact ⟨p, q', ih.1 hp, hedge, reads_nil_iff.2 hpath⟩
    · rintro ⟨p, q', hread, hedge, hpath⟩
      exact ⟨p, ih.2 hread, q', hedge, reads_nil_iff.1 hpath⟩

/-! ### What a set of states accepts -/

/-- Of the accepting states among `states`, the state `x` with the acceptance `b` counts: none has a
smaller priority, and none before it the same. -/
def Wins (m : Nfa) (states : List Nat) (x : Nat) (b : Accept) : Prop :=
  x ∈ states ∧ m.acceptOf x = some b ∧ ∀ y ∈ states, ∀ c, m.acceptOf y = some c →
    b.priority ≤ c.priority ∧ (y < x → b.priority < c.priority)

theorem foldl_betterAccept {states : List Nat} (h : states.Pairwise (· < ·)) :
    ((states.filterMap m.acceptOf).foldl betterAccept none = none ∧
      ∀ x ∈ states, m.acceptOf x = none) ∨
    ∃ x b, (states.filterMap m.acceptOf).foldl betterAccept none = some b ∧
      m.Wins states x b := by
  induction states using List.reverseRecOn with
  | nil => exact Or.inl ⟨rfl, fun x hx => absurd hx List.not_mem_nil⟩
  | append_singleton states z ih =>
    obtain ⟨hstates, -, hz⟩ := List.pairwise_append.1 h
    have hlt : ∀ y ∈ states, y < z := fun y hy => hz y hy z (List.mem_singleton_self z)
    rw [List.filterMap_append, List.foldl_append]
    cases hacc : m.acceptOf z with
    | none =>
      -- the new state accepts nothing, so all is as before
      have hnil : [z].filterMap m.acceptOf = [] := by simp [hacc]
      rw [hnil, List.foldl_nil]
      rcases ih hstates with ⟨hfold, hnone⟩ | ⟨x, b, hfold, hx, hb, hall⟩
      · refine Or.inl ⟨hfold, ?_⟩
        intro y hy
        rcases List.mem_append.1 hy with hy | hy
        · exact hnone y hy
        · rw [List.mem_singleton.1 hy]
          exact hacc
      · refine Or.inr ⟨x, b, hfold, List.mem_append_left _ hx, hb, ?_⟩
        intro y hy c hc
        rcases List.mem_append.1 hy with hy | hy
        · exact hall y hy c hc
        · rw [List.mem_singleton.1 hy, hacc] at hc
          exact absurd hc (by simp)
    | some a =>
      have hone : [z].filterMap m.acceptOf = [a] := by simp [hacc]
      rw [hone, List.foldl_cons, List.foldl_nil]
      right
      rcases ih hstates with ⟨hfold, hnone⟩ | ⟨x, b, hfold, hx, hb, hall⟩
      · refine ⟨z, a, by rw [hfold, betterAccept], ?_, hacc, ?_⟩
        · exact List.mem_append_right _ (List.mem_singleton_self z)
        · intro y hy c hc
          rcases List.mem_append.1 hy with hy | hy
          · rw [hnone y hy] at hc
            exact absurd hc (by simp)
          · rw [List.mem_singleton.1 hy] at hc ⊢
            rw [hacc, Option.some.injEq] at hc
            rw [hc]
            exact ⟨Nat.le_refl _, fun hlt => absurd hlt (Nat.lt_irrefl z)⟩
      · by_cases hlow : a.priority < b.priority
        · -- the new state is better than all before it
          refine ⟨z, a, by rw [hfold, betterAccept, if_pos hlow], ?_, hacc, ?_⟩
          · exact List.mem_append_right _ (List.mem_singleton_self z)
          · intro y hy c hc
            rcases List.mem_append.1 hy with hy | hy
            · have := (hall y hy c hc).1
              exact ⟨by omega, fun _ => by omega⟩
            · rw [List.mem_singleton.1 hy] at hc ⊢
              rw [hacc, Option.some.injEq] at hc
              rw [hc]
              exact ⟨Nat.le_refl _, fun hlt => absurd hlt (Nat.lt_irrefl z)⟩
        · refine ⟨x, b, by rw [hfold, betterAccept, if_neg hlow], List.mem_append_left _ hx, hb, ?_⟩
          intro y hy c hc
          rcases List.mem_append.1 hy with hy | hy
          · exact hall y hy c hc
          · rw [List.mem_singleton.1 hy] at hc ⊢
            rw [hacc, Option.some.injEq] at hc
            rw [← hc]
            exact ⟨by omega, fun hzx => absurd (hlt x hx) (Nat.lt_asymm hzx)⟩

/-- A set of states accepts nothing only if none of its states does. -/
theorem acceptOf_of_bestAccept_none {states : IdSet} (h : m.bestAccept states = none) :
    ∀ x ∈ states, m.acceptOf x = none := by
  rcases foldl_betterAccept (m := m) states.pairwise_toList with ⟨-, hnone⟩ | ⟨x, b, hfold, -⟩
  · intro x hx
    exact hnone x (IdSet.mem_toList.2 hx)
  · rw [bestAccept, hfold] at h
    exact absurd h (by simp)

theorem wins_of_bestAccept {states : IdSet} {b : Accept} (h : m.bestAccept states = some b) :
    ∃ x, m.Wins states.toList x b := by
  rcases foldl_betterAccept (m := m) states.pairwise_toList with ⟨hfold, -⟩ | ⟨x, b', hfold, hwins⟩
  · rw [bestAccept, hfold] at h
    exact absurd h (by simp)
  · rw [bestAccept, hfold, Option.some.injEq] at h
    exact ⟨x, h ▸ hwins⟩

theorem step_empty {letters : Nat} (hm : m.Bounded letters) (a : Nat) : m.step ∅ a = ∅ := by
  refine IdSet.ext fun i => ⟨?_, fun hi => absurd hi (IdSet.not_mem_empty i)⟩
  intro hi
  obtain ⟨p, hp, -⟩ := (mem_step hm).1 hi
  exact absurd hp (IdSet.not_mem_empty p)

theorem foldl_step_empty {letters : Nat} (hm : m.Bounded letters) (as : List Nat) :
    as.foldl m.step ∅ = ∅ := by
  induction as with
  | nil => rfl
  | cons a as ih => rw [List.foldl_cons, step_empty hm, ih]

/-- Without a state left nothing is accepted any more, so stopping early makes no difference. -/
theorem acceptsAfter_recognizer {letters : Nat} (hm : m.Bounded letters) (letter : Char → Nat)
    (states : IdSet) (cs : List Char) : m.recognizer.acceptsAfter letter states cs =
      (m.bestAccept ((cs.map letter).foldl m.step states)).map Accept.terminal := by
  induction cs generalizing states with
  | nil => rfl
  | cons c cs ih =>
    rw [Recognizer.acceptsAfter, List.map_cons, List.foldl_cons]
    by_cases hempty : m.step states (letter c) = ∅
    · have hnext : m.recognizer.next states (letter c) = none := if_pos hempty
      rw [hnext, hempty, foldl_step_empty hm, bestAccept, IdSet.toList_empty]
      rfl
    · have hnext : m.recognizer.next states (letter c) = some (m.step states (letter c)) :=
        if_neg hempty
      rw [hnext, Option.bind_some]
      exact ih _

end Nfa

end ShiftReduce
