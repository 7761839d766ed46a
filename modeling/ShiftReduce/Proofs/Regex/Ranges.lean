import ShiftReduce.Proofs.Regex.Language

/-!
# Ranges of code points

A list of ranges stands for the code points that one of them covers (`Covered`). Normalizing keeps
these code points and brings the ranges into normal form, and the complement of a list in normal form
covers exactly the other code points below `charEnd`. So the ranges of a one-character expression
cover exactly the characters that it matches (`covered_charRanges`).
-/

namespace ShiftReduce

/-- One of the ranges covers the code point `n`. -/
def Covered (ranges : List CodeRange) (n : Nat) : Prop := ∃ r ∈ ranges, CodeRange.Covers r n

theorem covered_nil (n : Nat) : ¬ Covered [] n := by
  rintro ⟨r, hr, -⟩
  exact absurd hr List.not_mem_nil

theorem covered_cons {r : CodeRange} {ranges : List CodeRange} {n : Nat} :
    Covered (r :: ranges) n ↔ CodeRange.Covers r n ∨ Covered ranges n :=
  List.exists_mem_cons_iff _ r ranges

/-- The ranges are not empty, in ascending order, and no two touch; the first one begins at `low` or
later. -/
def NormalFrom (low : Nat) : List CodeRange → Prop
  | [] => True
  | r :: rest => low ≤ r.1 ∧ r.1 < r.2 ∧ NormalFrom (r.2 + 1) rest

theorem NormalFrom.mono {low low' : Nat} (hle : low' ≤ low) {ranges : List CodeRange}
    (h : NormalFrom low ranges) : NormalFrom low' ranges := by
  cases ranges with
  | nil => trivial
  | cons r rest => exact ⟨Nat.le_trans hle h.1, h.2⟩

/-- What is covered lies behind the beginning of the first range. -/
theorem NormalFrom.le_of_covered {low : Nat} {ranges : List CodeRange} (h : NormalFrom low ranges)
    {n : Nat} (hn : Covered ranges n) : low ≤ n := by
  induction ranges generalizing low with
  | nil => exact absurd hn (covered_nil n)
  | cons r rest ih =>
    obtain ⟨hlow, hr, hrest⟩ := h
    rcases covered_cons.1 hn with hn | hn
    · exact Nat.le_trans hlow hn.1
    · have := ih hrest hn
      omega

/-! ### Normalizing -/

theorem covered_addRange {lo hi : Nat} (hlt : lo < hi) {ranges : List CodeRange} {low : Nat}
    (h : NormalFrom low ranges) {n : Nat} :
    Covered (addRange lo hi ranges) n ↔ lo ≤ n ∧ n < hi ∨ Covered ranges n := by
  induction ranges generalizing lo hi low with
  | nil => simp [addRange, Covered, CodeRange.Covers]
  | cons r rest ih =>
    obtain ⟨a, b⟩ := r
    obtain ⟨hlow, hr, hrest⟩ := h
    simp only at hlow hr hrest
    rw [addRange]
    split
    · rw [covered_cons]
      rfl
    · split
      · rw [covered_cons, ih hlt hrest, covered_cons]
        exact or_left_comm
      · rw [ih (by omega) hrest, covered_cons, ← or_assoc]
        refine or_congr_left ?_
        simp only [CodeRange.Covers]
        omega

theorem normalFrom_addRange {lo hi : Nat} (hlt : lo < hi) {ranges : List CodeRange} {low : Nat}
    (h : NormalFrom low ranges) (hlow : low ≤ lo) : NormalFrom low (addRange lo hi ranges) := by
  induction ranges generalizing lo hi low with
  | nil => exact ⟨hlow, hlt, trivial⟩
  | cons r rest ih =>
    obtain ⟨a, b⟩ := r
    obtain ⟨hla, hr, hrest⟩ := h
    simp only at hla hr hrest
    rw [addRange]
    split
    · next hhi => exact ⟨hlow, hlt, by omega, hr, hrest⟩
    · split
      · next hb => exact ⟨hla, hr, ih hlt hrest (by omega)⟩
      · exact ih (by omega) (hrest.mono (by omega)) (by omega)

theorem normalize_spec (ranges : List CodeRange) : NormalFrom 0 (normalize ranges) ∧
    ∀ n, Covered (normalize ranges) n ↔ Covered ranges n := by
  -- generalised over the ranges that have been added before
  have hfold : ∀ (ranges acc : List CodeRange), NormalFrom 0 acc →
      NormalFrom 0 (ranges.foldl
        (fun acc r => if r.1 < r.2 then addRange r.1 r.2 acc else acc) acc) ∧
      ∀ n, Covered (ranges.foldl
        (fun acc r => if r.1 < r.2 then addRange r.1 r.2 acc else acc) acc) n ↔
        Covered acc n ∨ Covered ranges n := by
    intro ranges
    induction ranges with
    | nil =>
      intro acc hacc
      exact ⟨hacc, fun n => (or_iff_left (covered_nil n)).symm⟩
    | cons r ranges ih =>
      intro acc hacc
      rw [List.foldl_cons]
      by_cases hr : r.1 < r.2
      · rw [if_pos hr]
        obtain ⟨hnormal, hcovered⟩ := ih _ (normalFrom_addRange hr hacc (Nat.zero_le _))
        refine ⟨hnormal, fun n => ?_⟩
        rw [hcovered, covered_addRange hr hacc, covered_cons, ← or_assoc,
          or_comm (b := Covered acc n)]
        rfl
      · rw [if_neg hr]
        obtain ⟨hnormal, hcovered⟩ := ih _ hacc
        refine ⟨hnormal, fun n => ?_⟩
        have hempty : ¬ CodeRange.Covers r n := by
          simp only [CodeRange.Covers]
          omega
        rw [hcovered, covered_cons, or_iff_right hempty]
  obtain ⟨hnormal, hcovered⟩ := hfold ranges [] trivial
  exact ⟨hnormal, fun n => (hcovered n).trans (or_iff_right (covered_nil n))⟩

/-! ### Complements -/

/-- Of the code points from `next` on, the gaps cover those that the ranges leave out. -/
theorem covered_complementFrom {next : Nat} {ranges : List CodeRange}
    (h : NormalFrom next ranges) {n : Nat} (hn : n < charEnd) :
    Covered (complementFrom next ranges) n ↔ next ≤ n ∧ ¬ Covered ranges n := by
  induction ranges generalizing next with
  | nil =>
    rw [complementFrom]
    split
    · rw [covered_cons]
      simp only [CodeRange.Covers, covered_nil n, not_false_eq_true, and_true, or_false]
      omega
    · have : ¬ next ≤ n := by omega
      simp only [covered_nil n, this, false_and]
  | cons r rest ih =>
    obtain ⟨lo, hi⟩ := r
    obtain ⟨hlow, hr, hrest⟩ := h
    simp only at hlow hr hrest
    -- behind this range the gaps are those of the rest
    have htail := ih (hrest.mono (Nat.le_succ hi))
    have hbehind : Covered rest n → hi < n := fun hcov => by
      have := hrest.le_of_covered hcov
      omega
    rw [complementFrom]
    split
    · rw [covered_cons, htail, covered_cons]
      simp only [CodeRange.Covers]
      by_cases hcov : Covered rest n
      · have := hbehind hcov
        simp only [hcov, not_true_eq_false, and_false, or_true, or_false, iff_false]
        omega
      · simp only [hcov, not_false_eq_true, and_true, or_false]
        omega
    · rw [htail, covered_cons]
      simp only [CodeRange.Covers]
      by_cases hcov : Covered rest n
      · simp only [hcov, not_true_eq_false, and_false, or_true]
      · simp only [hcov, not_false_eq_true, and_true, or_false]
        omega

theorem covered_complement {ranges : List CodeRange} (h : NormalFrom 0 ranges) {n : Nat}
    (hn : n < charEnd) : Covered (complement ranges) n ↔ ¬ Covered ranges n := by
  rw [complement, covered_complementFrom h hn]
  exact and_iff_right (Nat.zero_le n)

/-! ### One-character expressions -/

theorem toNat_lt_charEnd (c : Char) : c.toNat < charEnd := by
  have := c.valid
  simp only [UInt32.isValidChar, Nat.isValidChar] at this
  rw [charEnd, Char.toNat]
  omega

theorem le_iff_toNat_le {c d : Char} : c ≤ d ↔ c.toNat ≤ d.toNat := Iff.rfl

theorem eq_iff_toNat_eq {c d : Char} : c = d ↔ c.toNat = d.toNat :=
  ⟨fun h => h ▸ rfl, fun h => Char.toNat_inj.1 h⟩

namespace CharClass

theorem normal_ranges : NormalFrom 0 digitRanges ∧ NormalFrom 0 wordRanges ∧
    NormalFrom 0 spaceRanges := by
  simp [NormalFrom, digitRanges, wordRanges, spaceRanges]

theorem covered_digitRanges (c : Char) : Covered digitRanges c.toNat ↔ IsDigit c := by
  simp only [digitRanges, IsDigit, covered_cons, covered_nil, or_false, CodeRange.Covers,
    le_iff_toNat_le, Char.reduceToNat]
  omega

theorem covered_wordRanges (c : Char) : Covered wordRanges c.toNat ↔ IsWord c := by
  simp only [wordRanges, IsWord, covered_cons, covered_nil, or_false, CodeRange.Covers,
    le_iff_toNat_le, eq_iff_toNat_eq, Char.reduceToNat]
  omega

theorem covered_spaceRanges (c : Char) : Covered spaceRanges c.toNat ↔ IsSpace c := by
  simp only [spaceRanges, IsSpace, covered_cons, covered_nil, or_false, CodeRange.Covers,
    le_iff_toNat_le, eq_iff_toNat_eq, Char.reduceToNat]
  omega

/-- The ranges of a named class cover its characters. -/
theorem covered_ranges (k : CharClass) (c : Char) : Covered k.ranges c.toNat ↔ k.Matches c := by
  have hc := toNat_lt_charEnd c
  obtain ⟨hdigit, hword, hspace⟩ := normal_ranges
  cases k with
  | digit => exact covered_digitRanges c
  | word => exact covered_wordRanges c
  | space => exact covered_spaceRanges c
  | notDigit => exact (covered_complement hdigit hc).trans (not_congr (covered_digitRanges c))
  | notWord => exact (covered_complement hword hc).trans (not_congr (covered_wordRanges c))
  | notSpace => exact (covered_complement hspace hc).trans (not_congr (covered_spaceRanges c))

end CharClass

theorem covered_flatMap {α : Type} {f : α → List CodeRange} {as : List α} {n : Nat} :
    Covered (as.flatMap f) n ↔ ∃ a ∈ as, Covered (f a) n := by
  constructor
  · rintro ⟨r, hr, hcov⟩
    obtain ⟨a, ha, hr⟩ := List.mem_flatMap.1 hr
    exact ⟨a, ha, r, hr, hcov⟩
  · rintro ⟨a, ha, r, hr, hcov⟩
    exact ⟨r, List.mem_flatMap.2 ⟨a, ha, hr⟩, hcov⟩

theorem covered_singleton {lo hi n : Nat} : Covered [(lo, hi)] n ↔ lo ≤ n ∧ n < hi := by
  rw [covered_cons, or_iff_left (covered_nil n)]
  rfl

theorem SetItem.covered_ranges (item : SetItem) (c : Char) :
    Covered item.ranges c.toNat ↔ item.Matches c := by
  cases item with
  | char d =>
    rw [SetItem.ranges, SetItem.Matches, covered_singleton, eq_iff_toNat_eq]
    omega
  | range first last =>
    rw [SetItem.ranges, SetItem.Matches, covered_singleton, le_iff_toNat_le, le_iff_toNat_le,
      Nat.lt_succ_iff]
  | cls k => exact k.covered_ranges c

/-- The ranges of a one-character expression cover the characters that it matches. -/
theorem Regex.covered_charRanges {r : Regex} {ranges : List CodeRange}
    (h : r.charRanges = some ranges) (c : Char) : Covered ranges c.toNat ↔ r.MatchesChar c := by
  have hc := toNat_lt_charEnd c
  cases r with
  | any =>
    rw [← Option.some.inj h, covered_complement (by simp [NormalFrom]) hc, covered_singleton,
      MatchesChar, ne_eq, eq_iff_toNat_eq]
    simp only [Char.reduceToNat]
    omega
  | char d =>
    rw [← Option.some.inj h, MatchesChar, covered_singleton, eq_iff_toNat_eq]
    omega
  | cls k =>
    rw [← Option.some.inj h]
    exact k.covered_ranges c
  | set negated items =>
    obtain ⟨hnormal, hcovered⟩ := normalize_spec (items.flatMap SetItem.ranges)
    have hitems : Covered (normalize (items.flatMap SetItem.ranges)) c.toNat ↔
        ∃ item ∈ items, item.Matches c := by
      rw [hcovered, covered_flatMap]
      exact exists_congr fun item => and_congr_right fun _ => item.covered_ranges c
    rw [← Option.some.inj h, MatchesChar, setRanges]
    cases negated with
    | false => simp only [Bool.false_eq_true, if_false, iff_true, hitems]
    | true => simp only [if_true, covered_complement hnormal hc, hitems, Bool.true_eq_false, iff_false]
  | empty => exact absurd h (by simp [charRanges])
  | alt rs => exact absurd h (by simp [charRanges])
  | concat rs => exact absurd h (by simp [charRanges])
  | optional r => exact absurd h (by simp [charRanges])
  | many r => exact absurd h (by simp [charRanges])
  | many1 r => exact absurd h (by simp [charRanges])
  | repeated r min max => exact absurd h (by simp [charRanges])

end ShiftReduce
