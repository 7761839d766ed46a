import ShiftReduce.Automaton.Alphabet
import ShiftReduce.Proofs.Regex.Ranges

/-!
# What letters tell apart

The letter of a code point is found by bisection in the ascending bounds of the alphabet. Compared
with the letter of a bound it lies on the same side as the code point does (`letterOf_le_iff`), so
the letters from that of the one bound of a range up to that of the other are those of the code
points in the range (`covered_iff_letters`).

A language can be carried over from code points or characters to letters: if every leaf of an
expression matches the images of the symbols that it matched before, the expression matches the images
of the texts (`Regex.langOver_map`).
-/

namespace ShiftReduce

/-! ### The bounds -/

theorem mem_insertAscending {n m : Nat} {ms : List Nat} :
    m ∈ insertAscending n ms ↔ m = n ∨ m ∈ ms := by
  induction ms with
  | nil => simp [insertAscending]
  | cons k ms ih =>
    rw [insertAscending]
    split
    · exact List.mem_cons
    · split
      · next hnk =>
        subst hnk
        rw [List.mem_cons]
        exact (or_iff_right_of_imp Or.inl).symm
      · rw [List.mem_cons, ih, List.mem_cons]
        exact or_left_comm

theorem pairwise_insertAscending {ms : List Nat} (h : ms.Pairwise (· < ·)) (n : Nat) :
    (insertAscending n ms).Pairwise (· < ·) := by
  induction ms with
  | nil => exact List.pairwise_singleton _ _
  | cons k ms ih =>
    obtain ⟨hk, hms⟩ := List.pairwise_cons.1 h
    rw [insertAscending]
    split
    · next hlt =>
      refine List.pairwise_cons.2 ⟨?_, h⟩
      intro m hm
      rcases List.mem_cons.1 hm with rfl | hm
      · exact hlt
      · exact Nat.lt_trans hlt (hk m hm)
    · split
      · exact h
      · refine List.pairwise_cons.2 ⟨?_, ih hms⟩
        intro m hm
        rcases mem_insertAscending.1 hm with rfl | hm
        · omega
        · exact hk m hm

namespace Alphabet

/-- The bounds begin with zero and are in ascending order. -/
structure Ordered (a : Alphabet) : Prop where
  zero : 0 ∈ a.bounds.toList
  ascending : a.bounds.toList.Pairwise (· < ·)

theorem boundsOf_spec (rs : List Regex) : (boundsOf rs).Pairwise (· < ·) ∧
    ∀ n, n ∈ boundsOf rs ↔ (n = 0 ∨ n = charEnd) ∨
      ∃ r ∈ Regex.allLeafRanges rs, n = r.1 ∨ n = r.2 := by
  have hfold : ∀ (ranges : List CodeRange) (acc : List Nat), acc.Pairwise (· < ·) →
      (ranges.foldl (fun acc r => insertAscending r.2 (insertAscending r.1 acc)) acc).Pairwise
        (· < ·) ∧
      ∀ n, n ∈ ranges.foldl (fun acc r => insertAscending r.2 (insertAscending r.1 acc)) acc ↔
        n ∈ acc ∨ ∃ r ∈ ranges, n = r.1 ∨ n = r.2 := by
    intro ranges
    induction ranges with
    | nil =>
      intro acc hacc
      exact ⟨hacc, fun n => by simp⟩
    | cons r ranges ih =>
      intro acc hacc
      obtain ⟨hpair, hmem⟩ :=
        ih _ (pairwise_insertAscending (pairwise_insertAscending hacc r.1) r.2)
      refine ⟨hpair, fun n => ?_⟩
      rw [List.foldl_cons, hmem, mem_insertAscending, mem_insertAscending, List.exists_mem_cons_iff]
      constructor
      · rintro ((h | h | h) | h)
        · exact Or.inr (Or.inl (Or.inr h))
        · exact Or.inr (Or.inl (Or.inl h))
        · exact Or.inl h
        · exact Or.inr (Or.inr h)
      · rintro (h | (h | h) | h)
        · exact Or.inl (Or.inr (Or.inr h))
        · exact Or.inl (Or.inr (Or.inl h))
        · exact Or.inl (Or.inl h)
        · exact Or.inr h
  obtain ⟨hpair, hmem⟩ := hfold (Regex.allLeafRanges rs) [0, charEnd] (by simp [charEnd])
  refine ⟨hpair, fun n => (hmem n).trans ?_⟩
  simp

theorem ordered_ofRegexes (rs : List Regex) : (ofRegexes rs).Ordered where
  zero := ((boundsOf_spec rs).2 0).2 (Or.inl (Or.inl rfl))
  ascending := (boundsOf_spec rs).1

/-- The ranges in the expressions begin and end at bounds of the alphabet. -/
theorem mem_bounds_ofRegexes {rs : List Regex} {r : CodeRange} (hr : r ∈ Regex.allLeafRanges rs) :
    r.1 ∈ (ofRegexes rs).bounds.toList ∧ r.2 ∈ (ofRegexes rs).bounds.toList :=
  ⟨((boundsOf_spec rs).2 _).2 (Or.inr ⟨r, hr, Or.inl rfl⟩),
    ((boundsOf_spec rs).2 _).2 (Or.inr ⟨r, hr, Or.inr rfl⟩)⟩

/-! ### Letters -/

theorem Ordered.getD_lt_getD {a : Alphabet} (h : a.Ordered) {i j : Nat} (hij : i < j)
    (hj : j < a.size) : a.bounds[i]?.getD 0 < a.bounds[j]?.getD 0 := by
  rw [size] at hj
  have hi := Nat.lt_trans hij hj
  rw [Array.getElem?_eq_getElem hi, Array.getElem?_eq_getElem hj]
  exact List.pairwise_iff_getElem.1 h.ascending i j hi hj hij

theorem Ordered.getD_le_getD {a : Alphabet} (h : a.Ordered) {i j : Nat} (hij : i ≤ j)
    (hj : j < a.size) : a.bounds[i]?.getD 0 ≤ a.bounds[j]?.getD 0 := by
  rcases Nat.lt_or_eq_of_le hij with hlt | rfl
  · exact Nat.le_of_lt (h.getD_lt_getD hlt hj)
  · exact Nat.le_refl _

/-- Bisection stays between its limits, whatever the bounds. -/
theorem bisect_le (bounds : Array Nat) (n : Nat) {lo hi : Nat} (hle : lo ≤ hi) :
    bisect bounds n lo hi ≤ hi := by
  fun_induction bisect bounds n lo hi with
  | case1 lo hi hlt mid hn ih =>
    have hmid : lo ≤ mid ∧ mid < hi := by omega
    exact Nat.le_trans (ih hmid.1) (Nat.le_of_lt hmid.2)
  | case2 lo hi hlt mid hn ih =>
    have hmid : lo ≤ mid ∧ mid < hi := by omega
    exact ih hmid.2
  | case3 lo hi hge => exact hle

theorem letterOf_le_size (a : Alphabet) (n : Nat) : a.letterOf n ≤ a.size :=
  Nat.le_trans (Nat.sub_le _ _) (bisect_le a.bounds n (Nat.zero_le _))

/-- Bisection finds the place where the bounds begin to exceed `n`. -/
theorem Ordered.lt_bisect_iff {a : Alphabet} (h : a.Ordered) {n lo hi : Nat} (hle : lo ≤ hi)
    (hhi : hi ≤ a.size) (hlow : ∀ i < lo, a.bounds[i]?.getD 0 ≤ n)
    (hhigh : ∀ i, hi ≤ i → i < a.size → n < a.bounds[i]?.getD 0) :
    bisect a.bounds n lo hi ≤ a.size ∧
      ∀ i < a.size, i < bisect a.bounds n lo hi ↔ a.bounds[i]?.getD 0 ≤ n := by
  fun_induction bisect a.bounds n lo hi with
  | case1 lo hi hlt mid hn ih =>
    have hmid : lo ≤ mid ∧ mid < hi := by omega
    refine ih hmid.1 (by omega) hlow ?_
    intro i hi' hsize
    exact Nat.lt_of_lt_of_le hn (h.getD_le_getD hi' hsize)
  | case2 lo hi hlt mid hn ih =>
    have hmid : lo ≤ mid ∧ mid < hi := by omega
    refine ih (by omega) hhi ?_ hhigh
    intro i hi'
    exact Nat.le_trans (h.getD_le_getD (Nat.le_of_lt_succ hi') (by omega)) (Nat.le_of_not_lt hn)
  | case3 lo hi hge =>
    refine ⟨by omega, ?_⟩
    intro i hsize
    constructor
    · exact hlow i
    · intro hi'
      by_contra hge'
      exact absurd hi' (Nat.not_le_of_lt (hhigh i (by omega) hsize))

/-- The letter of a code point, compared with an index of a bound. -/
theorem Ordered.le_letterOf_iff {a : Alphabet} (h : a.Ordered) (n : Nat) :
    a.letterOf n < a.size ∧
      ∀ i < a.size, i ≤ a.letterOf n ↔ a.bounds[i]?.getD 0 ≤ n := by
  obtain ⟨hle, hiff⟩ := h.lt_bisect_iff (n := n) (Nat.zero_le a.size) (Nat.le_refl _)
    (fun i hi => absurd hi (Nat.not_lt_zero i)) (fun i hi hsize => by omega)
  -- the first bound is zero, which no code point is below
  obtain ⟨k, hk, hzero⟩ := List.getElem_of_mem h.zero
  have hk0 : a.bounds[k]?.getD 0 = 0 := by
    rw [Array.getElem?_eq_getElem hk]
    exact hzero
  have hpos : 0 < bisect a.bounds n 0 a.size := by
    have := (hiff k hk).2 (by omega)
    omega
  have hletter : a.letterOf n = bisect a.bounds n 0 a.size - 1 := rfl
  refine ⟨by omega, ?_⟩
  intro i hi
  rw [← hiff i hi]
  omega

/-- The letter of a bound is its index. -/
theorem Ordered.letterOf_getD {a : Alphabet} (h : a.Ordered) {j : Nat} (hj : j < a.size) :
    a.letterOf (a.bounds[j]?.getD 0) = j := by
  obtain ⟨hsize, hiff⟩ := h.le_letterOf_iff (a.bounds[j]?.getD 0)
  refine Nat.le_antisymm ?_ ((hiff j hj).2 (Nat.le_refl _))
  by_contra hlt
  have hbelow := h.getD_lt_getD (Nat.lt_of_not_le hlt) hsize
  exact Nat.not_le_of_lt hbelow ((hiff _ hsize).1 (Nat.le_refl _))

/-- The letter of a code point lies on the same side of a bound as the code point. -/
theorem Ordered.letterOf_le_iff {a : Alphabet} (h : a.Ordered) {b : Nat}
    (hb : b ∈ a.bounds.toList) (n : Nat) : a.letterOf b ≤ a.letterOf n ↔ b ≤ n := by
  obtain ⟨j, hj, hget⟩ := List.getElem_of_mem hb
  have hbj : a.bounds[j]?.getD 0 = b := by
    rw [Array.getElem?_eq_getElem hj]
    exact hget
  rw [← hbj, h.letterOf_getD hj, (h.le_letterOf_iff n).2 j hj]

/-- Ranges that begin and end at bounds cover the code points whose letters lie in between. -/
theorem Ordered.covered_iff_letters {a : Alphabet} (h : a.Ordered) {ranges : List CodeRange}
    (hranges : ∀ r ∈ ranges, r.1 ∈ a.bounds.toList ∧ r.2 ∈ a.bounds.toList) (n : Nat) :
    Covered ranges n ↔
      ∃ r ∈ ranges, a.letterOf r.1 ≤ a.letterOf n ∧ a.letterOf n < a.letterOf r.2 := by
  refine exists_congr fun r => and_congr_right fun hr => ?_
  obtain ⟨hlo, hhi⟩ := hranges r hr
  have hlower := h.letterOf_le_iff hlo n
  have hupper := h.letterOf_le_iff hhi n
  rw [CodeRange.Covers]
  omega

end Alphabet

/-! ### From one kind of symbols to another -/

namespace Regex

variable {σ τ : Type}

theorem one_eq_map {f : σ → τ} {P : σ → Prop} {P' : τ → Prop}
    (h : ∀ d, P' d ↔ ∃ c, P c ∧ f c = d) : one P' = Language.map f (one P) := by
  ext w
  constructor
  · rintro ⟨d, hd, rfl⟩
    obtain ⟨c, hc, rfl⟩ := (h d).1 hd
    exact ⟨[c], ⟨c, hc, rfl⟩, rfl⟩
  · rintro ⟨v, ⟨c, hc, rfl⟩, rfl⟩
    exact ⟨f c, (h _).2 ⟨c, hc, rfl⟩, rfl⟩

/-- The leaves whose ranges are as `P` says match the images of the symbols that they matched
before. -/
def LeavesMap (P : CodeRange → Prop) (f : σ → τ) (leaf : Regex → σ → Prop)
    (leaf' : Regex → τ → Prop) : Prop :=
  ∀ r ranges, charRanges r = some ranges → (∀ range ∈ ranges, P range) →
    ∀ d, leaf' r d ↔ ∃ c, leaf r c ∧ f c = d

variable {P : CodeRange → Prop} {f : σ → τ} {leaf : Regex → σ → Prop} {leaf' : Regex → τ → Prop}

mutual

/-- An expression whose leaves match the images of the symbols that they matched before matches the
images of the texts. -/
theorem langOver_map (hleaf : LeavesMap P f leaf leaf') : ∀ r : Regex,
    (∀ range ∈ r.leafRanges, P range) → langOver leaf' r = Language.map f (langOver leaf r)
  | .empty, _ => by rw [langOver, langOver, map_one]
  | .any, h => by
    rw [langOver, langOver]
    exact one_eq_map (hleaf _ _ rfl h)
  | .char c, h => by
    rw [langOver, langOver]
    exact one_eq_map (hleaf _ _ rfl h)
  | .set negated items, h => by
    rw [langOver, langOver]
    exact one_eq_map (hleaf _ _ rfl h)
  | .cls k, h => by
    rw [langOver, langOver]
    exact one_eq_map (hleaf _ _ rfl h)
  | .alt rs, h => by
    rw [langOver, langOver]
    exact altOver_map hleaf rs h
  | .concat rs, h => by
    rw [langOver, langOver]
    exact concatOver_map hleaf rs h
  | .optional r, h => by
    rw [langOver, langOver, langOver_map hleaf r h, map_add, map_one]
  | .many r, h => by
    rw [langOver, langOver, langOver_map hleaf r h, Language.map_kstar]
  | .many1 r, h => by
    rw [langOver, langOver, langOver_map hleaf r h, map_mul, Language.map_kstar]
  | .repeated r min none, h => by
    rw [langOver, langOver, langOver_map hleaf r h, map_mul, map_pow, Language.map_kstar]
  | .repeated r min (some max), h => by
    rw [langOver, langOver, langOver_map hleaf r h]
    ext w
    constructor
    · rintro ⟨k, hmin, hmax, hw⟩
      rw [← map_pow] at hw
      obtain ⟨v, hv, rfl⟩ := hw
      exact ⟨v, ⟨k, hmin, hmax, hv⟩, rfl⟩
    · rintro ⟨v, ⟨k, hmin, hmax, hv⟩, rfl⟩
      refine ⟨k, hmin, hmax, ?_⟩
      rw [← map_pow]
      exact ⟨v, hv, rfl⟩

theorem altOver_map (hleaf : LeavesMap P f leaf leaf') : ∀ rs : List Regex,
    (∀ range ∈ allLeafRanges rs, P range) → altOver leaf' rs = Language.map f (altOver leaf rs)
  | [], _ => by rw [altOver, altOver, map_zero]
  | r :: rs, h => by
    rw [allLeafRanges, List.forall_mem_append] at h
    rw [altOver, altOver, langOver_map hleaf r h.1, altOver_map hleaf rs h.2, map_add]

theorem concatOver_map (hleaf : LeavesMap P f leaf leaf') : ∀ rs : List Regex,
    (∀ range ∈ allLeafRanges rs, P range) →
      concatOver leaf' rs = Language.map f (concatOver leaf rs)
  | [], _ => by rw [concatOver, concatOver, map_one]
  | r :: rs, h => by
    rw [allLeafRanges, List.forall_mem_append] at h
    rw [concatOver, concatOver, langOver_map hleaf r h.1, concatOver_map hleaf rs h.2, map_mul]

end

end Regex

end ShiftReduce
