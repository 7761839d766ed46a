import Mathlib.Algebra.Ring.Nat
import Mathlib.Data.Finset.Card
import ShiftReduce.IdSet
import ShiftReduce.Stable

/-!
# Counting what can be added

Every loop of the library that stops when nothing is added any more is given a number of rounds in
advance. That this number is enough is a matter of counting: a round that changes something makes
a set of identifiers larger, and there are only so many identifiers to add.

`IdSet.card` counts the members of a set. `foldl_eq_or_size_lt` lifts "a step changes nothing or
adds something" from one step to a round of steps, and `untilStable_fixed` says that a repetition
with enough rounds ends in a fixed point.
-/

namespace ShiftReduce

/-- There are no more different numbers below `n` than `n`. -/
theorem length_le_of_nodup_of_lt {l : List Nat} {n : Nat} (hl : l.Nodup) (h : ∀ i ∈ l, i < n) :
    l.length ≤ n := by
  rw [← List.toFinset_card_of_nodup hl, ← Finset.card_range n]
  apply Finset.card_le_card
  intro i hi
  exact Finset.mem_range.2 (h i (List.mem_toFinset.1 hi))

namespace IdSet

theorem nodup_toList (s : IdSet) : s.toList.Nodup :=
  s.pairwise_toList.imp Nat.ne_of_lt

theorem toList_empty : (∅ : IdSet).toList = [] := by
  refine List.eq_nil_iff_forall_not_mem.2 fun i hi => ?_
  exact not_mem_empty i (mem_toList.1 hi)

/-- The number of members. -/
def card (s : IdSet) : Nat := s.toList.length

theorem card_eq_card_toFinset (s : IdSet) : s.card = s.toList.toFinset.card :=
  (List.toFinset_card_of_nodup s.nodup_toList).symm

/-- All members of the set are below `n`. -/
def Below (n : Nat) (s : IdSet) : Prop := ∀ i ∈ s, i < n

theorem below_empty (n : Nat) : Below n ∅ := by
  intro i hi
  exact absurd hi (not_mem_empty i)

theorem below_union {n : Nat} {s t : IdSet} (hs : s.Below n) (ht : t.Below n) :
    (s ∪ t).Below n := by
  intro i hi
  exact (mem_union.1 hi).elim (hs i) (ht i)

theorem card_le_of_below {n : Nat} {s : IdSet} (h : s.Below n) : s.card ≤ n :=
  length_le_of_nodup_of_lt s.nodup_toList fun i hi => h i (mem_toList.1 hi)

theorem card_le_card {s t : IdSet} (h : ∀ i ∈ s, i ∈ t) : s.card ≤ t.card := by
  rw [card_eq_card_toFinset, card_eq_card_toFinset]
  apply Finset.card_le_card
  intro i hi
  rw [List.mem_toFinset, mem_toList] at hi ⊢
  exact h i hi

/-- A set that has grown has more members. -/
theorem card_lt_card {s t : IdSet} (h : ∀ i ∈ s, i ∈ t) (hne : s ≠ t) : s.card < t.card := by
  rw [card_eq_card_toFinset, card_eq_card_toFinset]
  apply Finset.card_lt_card
  rw [Finset.ssubset_iff_of_subset]
  · by_contra hall
    push Not at hall
    apply hne
    apply ext
    intro i
    refine ⟨h i, fun hi => ?_⟩
    have := hall i (List.mem_toFinset.2 (mem_toList.2 hi))
    rwa [List.mem_toFinset, mem_toList] at this
  · intro i hi
    rw [List.mem_toFinset, mem_toList] at hi ⊢
    exact h i hi

theorem card_lt_card_union {s t : IdSet} (h : s ∪ t ≠ s) : s.card < (s ∪ t).card :=
  card_lt_card (fun _ hi => mem_union.2 (Or.inl hi)) (Ne.symm h)

/-- There are no more different sets of numbers below `n` than `2 ^ n`. -/
theorem length_le_of_nodup_of_below {sets : List IdSet} {n : Nat} (hsets : sets.Nodup)
    (h : ∀ s ∈ sets, s.Below n) : sets.length ≤ 2 ^ n := by
  have hinj : Function.Injective bits := by
    rintro ⟨a⟩ ⟨b⟩ rfl
    rfl
  rw [← List.length_map bits]
  refine length_le_of_nodup_of_lt ((List.nodup_map_iff hinj).2 hsets) ?_
  intro b hb
  obtain ⟨s, hs, rfl⟩ := List.mem_map.1 hb
  refine Nat.lt_pow_two_of_testBit _ fun i hi => ?_
  rw [Bool.eq_false_iff]
  intro hbit
  exact absurd (h s hs i hbit) (Nat.not_lt_of_le hi)

end IdSet

/-- If every step of a round changes nothing or makes the size larger, then so does the round; and
a round that changes nothing consists of steps that change nothing. The predicate `P` is what the
steps keep. -/
theorem foldl_eq_or_size_lt {α β : Type} (step : α → β → α) (size : α → Nat) {P : α → Prop}
    (hP : ∀ a b, P a → P (step a b))
    (hgrow : ∀ a b, P a → step a b ≠ a → size a < size (step a b)) (l : List β) {a : α}
    (ha : P a) :
    (l.foldl step a = a ∧ ∀ b ∈ l, step a b = a) ∨ size a < size (l.foldl step a) := by
  induction l generalizing a with
  | nil => simp
  | cons b l ih =>
    by_cases hb : step a b = a
    · rcases ih ha with ⟨heq, hall⟩ | hlt
      · left
        rw [List.foldl_cons, hb]
        exact ⟨heq, List.forall_mem_cons.2 ⟨hb, hall⟩⟩
      · right
        simpa [hb] using hlt
    · right
      have hfirst := hgrow a b ha hb
      rcases ih (hP a b ha) with ⟨heq, -⟩ | hlt
      · rw [List.foldl_cons, heq]
        exact hfirst
      · exact Nat.lt_trans hfirst hlt

/-- What holds at the beginning and is kept by `f` holds at the end. -/
theorem untilStable_induction {α : Type} [DecidableEq α] {f : α → α} {P : α → Prop}
    (hP : ∀ a, P a → P (f a)) (fuel : Nat) {a : α} (ha : P a) : P (untilStable f fuel a) := by
  induction fuel generalizing a with
  | zero => exact ha
  | succ fuel ih =>
    rw [untilStable]
    split
    · exact ha
    · exact ih (hP a ha)

/-- What is returned is what some number of rounds makes of the beginning. -/
theorem exists_iterate_untilStable {α : Type} [DecidableEq α] (f : α → α) (fuel : Nat) (a : α) :
    ∃ k ≤ fuel, f^[k] a = untilStable f fuel a := by
  induction fuel generalizing a with
  | zero => exact ⟨0, Nat.le_refl _, rfl⟩
  | succ fuel ih =>
    rw [untilStable]
    split
    · exact ⟨0, Nat.zero_le _, rfl⟩
    · obtain ⟨k, hk, heq⟩ := ih (f a)
      exact ⟨k + 1, Nat.succ_le_succ hk, heq⟩

/-- If the size is bounded and every change makes it larger, enough rounds lead to a fixed point. -/
theorem untilStable_fixed {α : Type} [DecidableEq α] {f : α → α} (size : α → Nat) {bound : Nat}
    {P : α → Prop} (hP : ∀ a, P a → P (f a)) (hbound : ∀ a, P a → size a ≤ bound)
    (hgrow : ∀ a, P a → f a ≠ a → size a < size (f a)) {fuel : Nat} {a : α} (ha : P a)
    (hfuel : bound < fuel + size a) : f (untilStable f fuel a) = untilStable f fuel a := by
  induction fuel generalizing a with
  | zero =>
    have := hbound a ha
    omega
  | succ fuel ih =>
    rw [untilStable]
    split
    · next heq => exact heq
    · next hne =>
      have hlt := hgrow a ha hne
      exact ih (hP a ha) (by omega)

end ShiftReduce
