import ShiftReduce.Proofs.Regex.Ranges

/-!
# The normal form of a set of code points

A set of code points has one list of ranges in normal form (`NormalFrom.eq_of_covered`): its first
range begins with the least code point of the set and ends with the first one that is missing. So a
list in normal form is known once it is known what it covers. That two lists which cover the same
normalize to the same list, that normalizing twice is normalizing once, and that the complement of
the complement is the list itself need no look at how these lists are made. Nor does it matter whether
ranges are added one by one or sorted first (`normalize_eq_sortAndMerge`).

The main statement is `ranges_canonical`.
-/

namespace ShiftReduce

/-- The ranges are in normal form: none is empty, and each one ends before those after it begin. -/
structure IsNormal (ranges : List CodeRange) : Prop where
  nonempty : ∀ r ∈ ranges, r.1 < r.2
  separated : ranges.Pairwise fun r s => r.2 < s.1

/-- The ranges lie below `charEnd`. -/
def BelowEnd (ranges : List CodeRange) : Prop := ∀ r ∈ ranges, r.2 ≤ charEnd

theorem isNormal_cons {r : CodeRange} {ranges : List CodeRange} :
    IsNormal (r :: ranges) ↔ r.1 < r.2 ∧ (∀ s ∈ ranges, r.2 < s.1) ∧ IsNormal ranges := by
  constructor
  · rintro ⟨hne, hsep⟩
    obtain ⟨hr, hne⟩ := List.forall_mem_cons.1 hne
    obtain ⟨hlt, hsep⟩ := List.pairwise_cons.1 hsep
    exact ⟨hr, hlt, hne, hsep⟩
  · rintro ⟨hr, hlt, hne, hsep⟩
    exact ⟨List.forall_mem_cons.2 ⟨hr, hne⟩, List.pairwise_cons.2 ⟨hlt, hsep⟩⟩

theorem normalFrom_iff {low : Nat} {ranges : List CodeRange} :
    NormalFrom low ranges ↔ IsNormal ranges ∧ ∀ r ∈ ranges, low ≤ r.1 := by
  induction ranges generalizing low with
  | nil => exact iff_of_true trivial ⟨⟨by simp, .nil⟩, by simp⟩
  | cons r rest ih =>
    rw [NormalFrom, ih, isNormal_cons, List.forall_mem_cons]
    constructor
    · rintro ⟨hlow, hr, hrest, hlt⟩
      refine ⟨⟨hr, hlt, hrest⟩, hlow, fun s hs => ?_⟩
      have := hlt s hs
      omega
    · rintro ⟨⟨hr, hlt, hrest⟩, hlow, -⟩
      exact ⟨hlow, hr, hrest, hlt⟩

theorem isNormal_iff {ranges : List CodeRange} : IsNormal ranges ↔ NormalFrom 0 ranges := by
  rw [normalFrom_iff]
  exact (and_iff_left fun _ _ => Nat.zero_le _).symm

/-! ### What the first range tells -/

section First

variable {low : Nat} {r : CodeRange} {rest : List CodeRange} {n : Nat}

theorem NormalFrom.covered_first (h : NormalFrom low (r :: rest)) : Covered (r :: rest) r.1 :=
  covered_cons.2 (Or.inl ⟨Nat.le_refl _, h.2.1⟩)

theorem NormalFrom.first_le (h : NormalFrom low (r :: rest)) (hn : Covered (r :: rest) n) :
    r.1 ≤ n := by
  have hfrom : NormalFrom r.1 (r :: rest) := ⟨Nat.le_refl _, h.2⟩
  exact hfrom.le_of_covered hn

/-- The other ranges cover what is covered behind the first one. -/
theorem NormalFrom.covered_rest_iff (h : NormalFrom low (r :: rest)) :
    Covered rest n ↔ r.2 ≤ n ∧ Covered (r :: rest) n := by
  rw [covered_cons]
  constructor
  · intro hn
    exact ⟨Nat.le_of_succ_le (h.2.2.le_of_covered hn), Or.inr hn⟩
  · rintro ⟨hle, hn | hn⟩
    · exact absurd hn.2 (Nat.not_lt_of_le hle)
    · exact hn

/-- The first code point behind the first range is not covered. -/
theorem NormalFrom.not_covered_end (h : NormalFrom low (r :: rest)) : ¬ Covered (r :: rest) r.2 := by
  rw [covered_cons]
  rintro (hn | hn)
  · exact absurd hn.2 (Nat.lt_irrefl _)
  · exact absurd (h.2.2.le_of_covered hn) (Nat.not_succ_le_self _)

/-- Where less is covered, the first range does not go on longer. -/
theorem NormalFrom.end_le (h : NormalFrom low (r :: rest)) {r' : CodeRange} {rest' : List CodeRange}
    (hfirst : r'.1 = r.1) (hcov : ∀ n, Covered (r' :: rest') n → Covered (r :: rest) n) :
    r'.2 ≤ r.2 := by
  by_contra hlt
  refine h.not_covered_end (hcov _ (covered_cons.2 (Or.inl ⟨?_, Nat.lt_of_not_le hlt⟩)))
  rw [hfirst]
  exact Nat.le_of_lt h.2.1

end First

/-- Lists in normal form that cover the same are equal. -/
theorem NormalFrom.eq_of_covered {low : Nat} {ranges ranges' : List CodeRange}
    (h : NormalFrom low ranges) (h' : NormalFrom low ranges')
    (hcov : ∀ n, Covered ranges n ↔ Covered ranges' n) : ranges = ranges' := by
  induction ranges generalizing low ranges' with
  | nil =>
    cases ranges' with
    | nil => rfl
    | cons r' rest' => exact absurd ((hcov r'.1).2 h'.covered_first) (covered_nil _)
  | cons r rest ih =>
    cases ranges' with
    | nil => exact absurd ((hcov r.1).1 h.covered_first) (covered_nil _)
    | cons r' rest' =>
      have hfirst : r.1 = r'.1 := Nat.le_antisymm (h.first_le ((hcov _).2 h'.covered_first))
        (h'.first_le ((hcov _).1 h.covered_first))
      have hend : r.2 = r'.2 := Nat.le_antisymm (h'.end_le hfirst fun n => (hcov n).1)
        (h.end_le hfirst.symm fun n => (hcov n).2)
      obtain rfl : r = r' := Prod.ext hfirst hend
      have hrest : rest = rest' := ih h.2.2 h'.2.2 fun n => by
        rw [h.covered_rest_iff, h'.covered_rest_iff, hcov]
      rw [hrest]

theorem IsNormal.eq_of_covered {ranges ranges' : List CodeRange} (h : IsNormal ranges)
    (h' : IsNormal ranges') (hcov : ∀ n, Covered ranges n ↔ Covered ranges' n) :
    ranges = ranges' :=
  (isNormal_iff.1 h).eq_of_covered (isNormal_iff.1 h') hcov

/-- Whether ranges lie below `charEnd` is seen from what they cover. -/
theorem IsNormal.belowEnd_iff {ranges : List CodeRange} (h : IsNormal ranges) :
    BelowEnd ranges ↔ ∀ n, Covered ranges n → n < charEnd := by
  constructor
  · rintro hbelow n ⟨r, hr, hn⟩
    exact Nat.lt_of_lt_of_le hn.2 (hbelow r hr)
  · intro hcov r hr
    -- the last code point of a range is covered
    have hlt := h.nonempty r hr
    have := hcov (r.2 - 1) ⟨r, hr, by omega, by omega⟩
    omega

/-! ### Normalizing and complements -/

section Normalize

variable {ranges ranges' : List CodeRange}

theorem isNormal_normalize (ranges : List CodeRange) : IsNormal (normalize ranges) :=
  isNormal_iff.2 (normalize_spec ranges).1

theorem covered_normalize {n : Nat} : Covered (normalize ranges) n ↔ Covered ranges n :=
  (normalize_spec ranges).2 n

theorem normalize_eq_iff :
    normalize ranges = normalize ranges' ↔ ∀ n, Covered ranges n ↔ Covered ranges' n := by
  constructor
  · intro heq n
    rw [← covered_normalize, heq, covered_normalize]
  · intro hcov
    refine (isNormal_normalize ranges).eq_of_covered (isNormal_normalize ranges') fun n => ?_
    rw [covered_normalize, covered_normalize, hcov]

theorem IsNormal.normalize_eq (h : IsNormal ranges) : normalize ranges = ranges :=
  (isNormal_normalize ranges).eq_of_covered h fun _ => covered_normalize

theorem belowEnd_normalize (h : BelowEnd ranges) : BelowEnd (normalize ranges) := by
  rw [(isNormal_normalize ranges).belowEnd_iff]
  intro n hn
  obtain ⟨r, hr, hn⟩ := covered_normalize.1 hn
  exact Nat.lt_of_lt_of_le hn.2 (h r hr)

theorem normalFrom_complementFrom {next : Nat} (h : NormalFrom next ranges) :
    NormalFrom next (complementFrom next ranges) := by
  induction ranges generalizing next with
  | nil =>
    rw [complementFrom]
    split
    · next hlt => exact ⟨Nat.le_refl _, hlt, trivial⟩
    · trivial
  | cons r rest ih =>
    obtain ⟨lo, hi⟩ := r
    obtain ⟨hlow, hr, hrest⟩ := h
    simp only at hlow hr hrest
    have hgaps := ih (hrest.mono (Nat.le_succ hi))
    rw [complementFrom]
    split
    · next hlt => exact ⟨Nat.le_refl _, hlt, hgaps.mono hr⟩
    · exact hgaps.mono (by omega)

theorem lt_charEnd_of_covered_complementFrom (hnormal : IsNormal ranges) (hbelow : BelowEnd ranges)
    {next n : Nat} (hn : Covered (complementFrom next ranges) n) : n < charEnd := by
  induction ranges generalizing next with
  | nil =>
    rw [complementFrom] at hn
    split at hn
    · exact (covered_singleton.1 hn).2
    · exact absurd hn (covered_nil n)
  | cons r rest ih =>
    obtain ⟨lo, hi⟩ := r
    obtain ⟨hr, -, hnormal⟩ := isNormal_cons.1 hnormal
    obtain ⟨hhi, hbelow⟩ := List.forall_mem_cons.1 hbelow
    rw [complementFrom] at hn
    split at hn
    · rcases covered_cons.1 hn with hn | hn
      · exact Nat.lt_of_lt_of_le (Nat.lt_trans hn.2 hr) hhi
      · exact ih hnormal hbelow hn
    · exact ih hnormal hbelow hn

theorem isNormal_complement (h : IsNormal ranges) : IsNormal (complement ranges) :=
  isNormal_iff.2 (normalFrom_complementFrom (isNormal_iff.1 h))

/-- The complement covers the code points that are left out, and nothing from `charEnd` on. -/
theorem covered_complement_iff (h : IsNormal ranges) (hbelow : BelowEnd ranges) {n : Nat} :
    Covered (complement ranges) n ↔ n < charEnd ∧ ¬ Covered ranges n := by
  constructor
  · intro hn
    have hlt := lt_charEnd_of_covered_complementFrom h hbelow hn
    exact ⟨hlt, (covered_complement (isNormal_iff.1 h) hlt).1 hn⟩
  · rintro ⟨hlt, hn⟩
    exact (covered_complement (isNormal_iff.1 h) hlt).2 hn

theorem belowEnd_complement (h : IsNormal ranges) (hbelow : BelowEnd ranges) :
    BelowEnd (complement ranges) := by
  rw [(isNormal_complement h).belowEnd_iff]
  exact fun n hn => ((covered_complement_iff h hbelow).1 hn).1

theorem complement_complement (h : IsNormal ranges) (hbelow : BelowEnd ranges) :
    complement (complement ranges) = ranges := by
  have hnormal := isNormal_complement h
  refine (isNormal_complement hnormal).eq_of_covered h fun n => ?_
  rw [covered_complement_iff hnormal (belowEnd_complement h hbelow), covered_complement_iff h hbelow,
    not_and, not_not]
  constructor
  · rintro ⟨hlt, hn⟩
    exact hn hlt
  · intro hn
    exact ⟨h.belowEnd_iff.1 hbelow n hn, fun _ => hn⟩

end Normalize

/-! ### Sorting first

The same list comes out if the ranges are sorted, and then each is joined with the last one of those
merged so far or put behind it. -/

/-- The order of ranges by their beginning, and then by their end. -/
def CodeRange.precedes (r s : CodeRange) : Bool := r.1 < s.1 || r.1 == s.1 && r.2 ≤ s.2

/-- Adds a range to those merged so far, the last of which comes first. It is joined with that one
unless it begins behind its end. -/
def mergeLast : List CodeRange → CodeRange → List CodeRange
  | [], r => [r]
  | last :: merged, r =>
    if r.1 ≤ last.2 then (last.1, max last.2 r.2) :: merged else r :: last :: merged

/-- The ranges that are not empty, sorted and merged from left to right. -/
def sortAndMerge (ranges : List CodeRange) : List CodeRange :=
  (((ranges.filter fun r => r.1 < r.2).mergeSort CodeRange.precedes).foldl mergeLast []).reverse

theorem covered_reverse {ranges : List CodeRange} {n : Nat} :
    Covered ranges.reverse n ↔ Covered ranges n :=
  exists_congr fun _ => and_congr_left fun _ => List.mem_reverse

theorem isNormal_reverse_cons {r : CodeRange} {merged : List CodeRange} :
    IsNormal (r :: merged).reverse ↔
      r.1 < r.2 ∧ (∀ s ∈ merged, s.2 < r.1) ∧ IsNormal merged.reverse := by
  constructor
  · rintro ⟨hne, hsep⟩
    simp only [List.mem_reverse, List.forall_mem_cons] at hne
    rw [List.pairwise_reverse, List.pairwise_cons] at hsep
    exact ⟨hne.1, hsep.1, by simpa using hne.2, List.pairwise_reverse.2 hsep.2⟩
  · rintro ⟨hr, hlt, hne, hsep⟩
    simp only [List.mem_reverse] at hne
    refine ⟨?_, List.pairwise_reverse.2 (List.pairwise_cons.2 ⟨hlt, List.pairwise_reverse.1 hsep⟩)⟩
    simp only [List.mem_reverse, List.forall_mem_cons]
    exact ⟨hr, hne⟩

/-- One step of merging: a range that does not begin before the last one. -/
theorem mergeLast_spec {merged : List CodeRange} {r : CodeRange} (h : IsNormal merged.reverse)
    (hr : r.1 < r.2) (hlast : ∀ last ∈ merged.head?, last.1 ≤ r.1) :
    IsNormal (mergeLast merged r).reverse ∧
    (∀ n, Covered (mergeLast merged r) n ↔ Covered merged n ∨ r.Covers n) ∧
    ∀ last ∈ (mergeLast merged r).head?, last.1 ≤ r.1 := by
  cases merged with
  | nil =>
    refine ⟨isNormal_reverse_cons.2 ⟨hr, by simp, h⟩, fun n => ?_, ?_⟩
    · rw [mergeLast, covered_cons, or_comm]
    · rintro last ⟨⟩
      exact Nat.le_refl _
  | cons last merged =>
    have hle : last.1 ≤ r.1 := hlast last rfl
    obtain ⟨hne, hlt, hmerged⟩ := isNormal_reverse_cons.1 h
    rw [mergeLast]
    split
    · next htouch =>
      refine ⟨isNormal_reverse_cons.2 ⟨?_, hlt, hmerged⟩, fun n => ?_, ?_⟩
      · exact Nat.lt_of_lt_of_le hne (Nat.le_max_left _ _)
      · rw [covered_cons, covered_cons, or_right_comm]
        refine or_congr_left ?_
        simp only [CodeRange.Covers]
        omega
      · rintro joined ⟨⟩
        exact hle
    · next hbehind =>
      have hgap := Nat.lt_of_not_le hbehind
      refine ⟨isNormal_reverse_cons.2 ⟨hr, ?_, h⟩, fun n => ?_, ?_⟩
      · refine List.forall_mem_cons.2 ⟨hgap, fun s hs => ?_⟩
        exact Nat.lt_of_lt_of_le (hlt s hs) hle
      · rw [covered_cons, or_comm]
      · rintro last' ⟨⟩
        exact Nat.le_refl _

theorem foldl_mergeLast {ranges merged : List CodeRange} (hne : ∀ r ∈ ranges, r.1 < r.2)
    (hsorted : ranges.Pairwise fun r s => r.1 ≤ s.1) (h : IsNormal merged.reverse)
    (hlast : ∀ last ∈ merged.head?, ∀ r ∈ ranges, last.1 ≤ r.1) :
    IsNormal (ranges.foldl mergeLast merged).reverse ∧
    ∀ n, Covered (ranges.foldl mergeLast merged) n ↔ Covered merged n ∨ Covered ranges n := by
  induction ranges generalizing merged with
  | nil => exact ⟨h, fun n => (or_iff_left (covered_nil n)).symm⟩
  | cons r ranges ih =>
    obtain ⟨hr, hne⟩ := List.forall_mem_cons.1 hne
    obtain ⟨hle, hsorted⟩ := List.pairwise_cons.1 hsorted
    obtain ⟨hstep, hcov, hbegin⟩ := mergeLast_spec h hr fun last hmem =>
      hlast last hmem r List.mem_cons_self
    obtain ⟨hnormal, hcov'⟩ := ih hne hsorted hstep fun last hmem s hs =>
      Nat.le_trans (hbegin last hmem) (hle s hs)
    refine ⟨hnormal, fun n => ?_⟩
    rw [List.foldl_cons, hcov', hcov, covered_cons, or_assoc]

theorem pairwise_sorted (ranges : List CodeRange) :
    (ranges.mergeSort CodeRange.precedes).Pairwise fun r s => r.1 ≤ s.1 := by
  refine (List.pairwise_mergeSort ?_ ?_ ranges).imp ?_
  · intro r s t
    simp only [CodeRange.precedes, Bool.or_eq_true, Bool.and_eq_true, decide_eq_true_eq, beq_iff_eq]
    omega
  · intro r s
    simp only [CodeRange.precedes, Bool.or_eq_true, Bool.and_eq_true, decide_eq_true_eq, beq_iff_eq]
    omega
  · intro r s
    simp only [CodeRange.precedes, Bool.or_eq_true, Bool.and_eq_true, decide_eq_true_eq, beq_iff_eq]
    omega

theorem normalize_eq_sortAndMerge (ranges : List CodeRange) :
    normalize ranges = sortAndMerge ranges := by
  have hmem : ∀ r, r ∈ (ranges.filter fun r => r.1 < r.2).mergeSort CodeRange.precedes ↔
      r ∈ ranges ∧ r.1 < r.2 := by
    intro r
    rw [(List.mergeSort_perm _ _).mem_iff, List.mem_filter, decide_eq_true_eq]
  have hnil : IsNormal [].reverse := ⟨by simp, by simp⟩
  obtain ⟨hnormal, hcov⟩ := foldl_mergeLast (fun r hr => ((hmem r).1 hr).2) (pairwise_sorted _) hnil
    (by simp)
  refine (isNormal_normalize ranges).eq_of_covered hnormal fun n => ?_
  -- the ranges that are left out cover nothing
  have hsorted : Covered ranges n ↔
      Covered ((ranges.filter fun r => r.1 < r.2).mergeSort CodeRange.precedes) n := by
    refine exists_congr fun r => ?_
    rw [hmem, and_assoc]
    refine and_congr_right fun _ => (and_iff_right_of_imp fun hn => ?_).symm
    exact Nat.lt_of_le_of_lt hn.1 hn.2
  rw [covered_normalize, hsorted, sortAndMerge, covered_reverse, hcov]
  exact (or_iff_right (covered_nil n)).symm

/-! ### One-character expressions -/

theorem isNormal_singleton {lo hi : Nat} : IsNormal [(lo, hi)] ↔ lo < hi := by
  rw [isNormal_iff, NormalFrom]
  simp [NormalFrom]

theorem CharClass.isNormal_ranges (k : CharClass) : IsNormal k.ranges ∧ BelowEnd k.ranges := by
  obtain ⟨hdigit, hword, hspace⟩ := normal_ranges
  rw [← isNormal_iff] at hdigit hword hspace
  have hbelow : BelowEnd digitRanges ∧ BelowEnd wordRanges ∧ BelowEnd spaceRanges := by
    simp [BelowEnd, digitRanges, wordRanges, spaceRanges, charEnd]
  obtain ⟨hdigit', hword', hspace'⟩ := hbelow
  cases k with
  | digit => exact ⟨hdigit, hdigit'⟩
  | word => exact ⟨hword, hword'⟩
  | space => exact ⟨hspace, hspace'⟩
  | notDigit => exact ⟨isNormal_complement hdigit, belowEnd_complement hdigit hdigit'⟩
  | notWord => exact ⟨isNormal_complement hword, belowEnd_complement hword hword'⟩
  | notSpace => exact ⟨isNormal_complement hspace, belowEnd_complement hspace hspace'⟩

theorem belowEnd_singleton {lo hi : Nat} : BelowEnd [(lo, hi)] ↔ hi ≤ charEnd :=
  List.forall_mem_singleton

theorem SetItem.belowEnd_ranges (item : SetItem) : BelowEnd item.ranges := by
  cases item with
  | char c => exact belowEnd_singleton.2 (toNat_lt_charEnd c)
  | range first last => exact belowEnd_singleton.2 (toNat_lt_charEnd last)
  | cls k => exact k.isNormal_ranges.2

namespace Regex

/-- The expression matches one character. -/
def IsOneChar : Regex → Prop
  | any => True
  | char _ => True
  | set _ _ => True
  | cls _ => True
  | _ => False

theorem isNormal_setRanges (negated : Bool) (items : List SetItem) :
    IsNormal (setRanges negated items) ∧ BelowEnd (setRanges negated items) := by
  have hnormal := isNormal_normalize (items.flatMap SetItem.ranges)
  have hbelow : BelowEnd (normalize (items.flatMap SetItem.ranges)) := by
    refine belowEnd_normalize fun r hr => ?_
    obtain ⟨item, -, hr⟩ := List.mem_flatMap.1 hr
    exact item.belowEnd_ranges r hr
  cases negated with
  | false => exact ⟨hnormal, hbelow⟩
  | true => exact ⟨isNormal_complement hnormal, belowEnd_complement hnormal hbelow⟩

/-- The ranges of a one-character expression are in normal form and below `charEnd`. -/
theorem isNormal_charRanges {r : Regex} {ranges : List CodeRange} (h : r.charRanges = some ranges) :
    IsNormal ranges ∧ BelowEnd ranges := by
  cases r with
  | any =>
    have hnormal : IsNormal [(0x0A, 0x0B)] := isNormal_singleton.2 (by decide)
    have hbelow : BelowEnd [(0x0A, 0x0B)] := belowEnd_singleton.2 (by decide)
    rw [← Option.some.inj h]
    exact ⟨isNormal_complement hnormal, belowEnd_complement hnormal hbelow⟩
  | char c =>
    rw [← Option.some.inj h]
    exact ⟨isNormal_singleton.2 (Nat.lt_succ_self _), belowEnd_singleton.2 (toNat_lt_charEnd c)⟩
  | cls k =>
    rw [← Option.some.inj h]
    exact k.isNormal_ranges
  | set negated items =>
    rw [← Option.some.inj h]
    exact isNormal_setRanges negated items
  | empty | alt | concat | optional | many | many1 | repeated => simp [charRanges] at h

theorem IsOneChar.exists_charRanges {r : Regex} (h : r.IsOneChar) :
    ∃ ranges, r.charRanges = some ranges := by
  cases r with
  | any | char | set | cls => exact ⟨_, rfl⟩
  | empty | alt | concat | optional | many | many1 | repeated => exact h.elim

end Regex

/-- The normal form of ranges is sorted, without empty ranges and without ranges that touch. It covers
what the ranges cover and depends on nothing else, so sorting them and merging each with the last one
gives it as well. Complements of such lists below `charEnd` are in
normal form again, cover the other code points and are undone by another complement. So the ranges of
a one-character expression, plain or negated, cover the characters that it matches. -/
theorem ranges_canonical :
    (∀ ranges : List CodeRange, IsNormal (normalize ranges) ∧
      (∀ n, Covered (normalize ranges) n ↔ Covered ranges n) ∧
      normalize (normalize ranges) = normalize ranges ∧
      normalize ranges = sortAndMerge ranges) ∧
    (∀ ranges ranges' : List CodeRange,
      normalize ranges = normalize ranges' ↔ ∀ n, Covered ranges n ↔ Covered ranges' n) ∧
    (∀ ranges : List CodeRange, IsNormal ranges → BelowEnd ranges →
      (∀ n, Covered (complement ranges) n ↔ n < charEnd ∧ ¬ Covered ranges n) ∧
      IsNormal (complement ranges) ∧ complement (complement ranges) = ranges) ∧
    (∀ r : Regex, r.IsOneChar → ∃ ranges, r.charRanges = some ranges ∧ IsNormal ranges ∧
      BelowEnd ranges ∧ ∀ c : Char, Covered ranges c.toNat ↔ r.MatchesChar c) := by
  refine ⟨fun ranges => ⟨isNormal_normalize ranges, fun n => covered_normalize,
    (isNormal_normalize ranges).normalize_eq, normalize_eq_sortAndMerge ranges⟩,
    fun ranges ranges' => normalize_eq_iff, ?_, ?_⟩
  · intro ranges hnormal hbelow
    exact ⟨fun n => covered_complement_iff hnormal hbelow, isNormal_complement hnormal,
      complement_complement hnormal hbelow⟩
  · intro r hr
    obtain ⟨ranges, hranges⟩ := hr.exists_charRanges
    obtain ⟨hnormal, hbelow⟩ := Regex.isNormal_charRanges hranges
    exact ⟨ranges, hranges, hnormal, hbelow, Regex.covered_charRanges hranges⟩

/-- Ranges that overlap, touch, repeat each other or are empty; and a negated set with such items. -/
theorem ranges_canonical_mixed :
    normalize [(5, 7), (0, 2), (2, 3), (6, 9), (4, 4), (8, 1)] = [(0, 3), (5, 9)] ∧
    complement (complement [(0, 3), (5, 9)]) = [(0, 3), (5, 9)] ∧
    ∃ ranges, Regex.charRanges (.set true [.range 'a' 'c', .char 'b', .char 'd', .range 'z' 'x',
      .cls .digit]) = some ranges ∧ IsNormal ranges ∧ BelowEnd ranges ∧
      ∀ c : Char, Covered ranges c.toNat ↔ Regex.MatchesChar (.set true [.range 'a' 'c', .char 'b',
        .char 'd', .range 'z' 'x', .cls .digit]) c := by
  obtain ⟨-, -, hcomplement, hchar⟩ := ranges_canonical
  have hnormal : IsNormal [(0, 3), (5, 9)] := ⟨by decide, by decide⟩
  have hbelow : BelowEnd [(0, 3), (5, 9)] := by simp [BelowEnd, charEnd]
  exact ⟨by decide, (hcomplement _ hnormal hbelow).2.2, hchar _ trivial⟩

end ShiftReduce
