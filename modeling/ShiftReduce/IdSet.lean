/-!
# Finite sets of identifiers

Terminals, nonterminals and automaton states are numbered from zero. A finite set of such numbers
is kept as one natural number whose bit `i` says whether `i` is a member. Two sets with the same
members are the same number (`IdSet.ext`), so a set can be compared and looked up directly, and
`IdSet.toList` lists the members in ascending order.
-/

namespace ShiftReduce

/-- A finite set of natural numbers, stored as the bits of one number. -/
structure IdSet where
  bits : Nat
deriving DecidableEq, Inhabited

namespace IdSet

instance : Membership Nat IdSet where
  mem s i := s.bits.testBit i = true

instance (i : Nat) (s : IdSet) : Decidable (i ∈ s) :=
  inferInstanceAs (Decidable (s.bits.testBit i = true))

theorem mem_def {i : Nat} {s : IdSet} : i ∈ s ↔ s.bits.testBit i = true := Iff.rfl

/-- Sets with the same members are equal. -/
theorem ext {s t : IdSet} (h : ∀ i, i ∈ s ↔ i ∈ t) : s = t := by
  cases s with
  | mk a =>
    cases t with
    | mk b =>
      have hbits : a = b := by
        apply Nat.eq_of_testBit_eq
        intro i
        exact Bool.eq_iff_iff.2 (h i)
      rw [hbits]

/-- The set without members. -/
def empty : IdSet := ⟨0⟩

instance : EmptyCollection IdSet := ⟨empty⟩

@[simp] theorem not_mem_empty (i : Nat) : i ∉ (∅ : IdSet) := by
  show ¬ (Nat.testBit 0 i = true)
  simp

/-- The set with the one member `i`. -/
def single (i : Nat) : IdSet := ⟨1 <<< i⟩

@[simp] theorem mem_single {i j : Nat} : i ∈ single j ↔ i = j := by
  show Nat.testBit (1 <<< j) i = true ↔ i = j
  rw [Nat.one_shiftLeft, Nat.testBit_two_pow]
  simp [eq_comm]

/-- The members of either set. -/
def union (s t : IdSet) : IdSet := ⟨s.bits ||| t.bits⟩

instance : Union IdSet := ⟨union⟩

@[simp] theorem mem_union {i : Nat} {s t : IdSet} : i ∈ s ∪ t ↔ i ∈ s ∨ i ∈ t := by
  show Nat.testBit (s.bits ||| t.bits) i = true ↔ _
  simp [mem_def]

/-- The set `s` with `i` added. -/
def insert (s : IdSet) (i : Nat) : IdSet := s ∪ single i

@[simp] theorem mem_insert {i j : Nat} {s : IdSet} : i ∈ s.insert j ↔ i ∈ s ∨ i = j := by
  simp [insert]

/-- Whether every member of `s` is one of `t`. -/
def subset (s t : IdSet) : Bool := decide (s ∪ t = t)

theorem subset_iff {s t : IdSet} : s.subset t = true ↔ ∀ i, i ∈ s → i ∈ t := by
  constructor
  · intro h i hi
    have heq : s ∪ t = t := of_decide_eq_true h
    rw [← heq]
    exact mem_union.2 (Or.inl hi)
  · intro h
    apply decide_eq_true
    apply ext
    intro i
    constructor
    · intro hi
      exact (mem_union.1 hi).elim (h i) id
    · intro hi
      exact mem_union.2 (Or.inr hi)

/-- The bits of `b` that are set, among the lowest `n`, each counted from `offset`. -/
def lowBits : Nat → Nat → Nat → List Nat
  | 0, _, _ => []
  | n + 1, offset, b =>
    if b = 0 then []
    else if b % 2 = 1 then offset :: lowBits n (offset + 1) (b / 2)
    else lowBits n (offset + 1) (b / 2)

theorem mem_lowBits {n offset b i : Nat} :
    i ∈ lowBits n offset b ↔ offset ≤ i ∧ i < offset + n ∧ b.testBit (i - offset) = true := by
  induction n generalizing offset b with
  | zero =>
    simp only [lowBits, List.not_mem_nil, false_iff]
    omega
  | succ n ih =>
    have hnext : i ∈ lowBits n (offset + 1) (b / 2) ↔
        offset + 1 ≤ i ∧ i < offset + (n + 1) ∧ b.testBit (i - offset) = true := by
      rw [ih, ← Nat.testBit_succ]
      constructor
      · rintro ⟨h₁, h₂, h₃⟩
        rw [show (i - (offset + 1)).succ = i - offset by omega] at h₃
        exact ⟨h₁, by omega, h₃⟩
      · rintro ⟨h₁, h₂, h₃⟩
        rw [show (i - (offset + 1)).succ = i - offset by omega]
        exact ⟨h₁, by omega, h₃⟩
    unfold lowBits
    split
    · next hb => simp [hb]
    · split
      · next hodd =>
        rw [List.mem_cons, hnext]
        constructor
        · rintro (rfl | ⟨h₁, h₂, h₃⟩)
          · exact ⟨Nat.le_refl _, by omega, by simp [hodd]⟩
          · exact ⟨by omega, h₂, h₃⟩
        · rintro ⟨h₁, h₂, h₃⟩
          by_cases hi : i = offset
          · exact Or.inl hi
          · exact Or.inr ⟨by omega, h₂, h₃⟩
      · next heven =>
        rw [hnext]
        constructor
        · rintro ⟨h₁, h₂, h₃⟩
          exact ⟨by omega, h₂, h₃⟩
        · rintro ⟨h₁, h₂, h₃⟩
          refine ⟨?_, h₂, h₃⟩
          by_cases hi : i = offset
          · subst hi
            simp [heven] at h₃
          · omega

theorem pairwise_lowBits (n offset b : Nat) : (lowBits n offset b).Pairwise (· < ·) := by
  induction n generalizing offset b with
  | zero => simp [lowBits]
  | succ n ih =>
    unfold lowBits
    split
    · simp
    · split
      · refine List.pairwise_cons.2 ⟨?_, ih _ _⟩
        intro i hi
        exact (mem_lowBits.1 hi).1
      · exact ih _ _

/-- The bits of `b` that are set, among the lowest `32 <<< k`, each counted from `offset`. A half
without set bits is passed over at once. -/
def setBits : Nat → Nat → Nat → List Nat
  | 0, offset, b => lowBits 32 offset b
  | k + 1, offset, b =>
    if b = 0 then []
    else
      let half := 32 <<< k
      setBits k offset (b % (1 <<< half)) ++ setBits k (offset + half) (b >>> half)

theorem mem_setBits {k offset b i : Nat} : i ∈ setBits k offset b ↔
    offset ≤ i ∧ i < offset + 32 <<< k ∧ b.testBit (i - offset) = true := by
  induction k generalizing offset b with
  | zero => simp [setBits, mem_lowBits]
  | succ k ih =>
    unfold setBits
    split
    · next hb => simp [hb]
    · rw [List.mem_append, ih, ih, Nat.one_shiftLeft, Nat.testBit_mod_two_pow,
        Nat.testBit_shiftRight, Nat.shiftLeft_eq, Nat.shiftLeft_eq, Nat.pow_succ]
      have hpos : 0 < 2 ^ k := Nat.two_pow_pos k
      generalize 2 ^ k = h at hpos
      constructor
      · rintro (⟨h₁, h₂, h₃⟩ | ⟨h₁, h₂, h₃⟩)
        · simp only [Bool.and_eq_true, decide_eq_true_eq] at h₃
          exact ⟨h₁, by omega, h₃.2⟩
        · refine ⟨by omega, by omega, ?_⟩
          rwa [show 32 * h + (i - (offset + 32 * h)) = i - offset by omega] at h₃
      · rintro ⟨h₁, h₂, h₃⟩
        by_cases hlow : i < offset + 32 * h
        · refine Or.inl ⟨h₁, hlow, ?_⟩
          simp only [Bool.and_eq_true, decide_eq_true_eq]
          exact ⟨by omega, h₃⟩
        · refine Or.inr ⟨by omega, by omega, ?_⟩
          rwa [show 32 * h + (i - (offset + 32 * h)) = i - offset by omega]

theorem pairwise_setBits (k offset b : Nat) : (setBits k offset b).Pairwise (· < ·) := by
  induction k generalizing offset b with
  | zero => exact pairwise_lowBits _ _ _
  | succ k ih =>
    unfold setBits
    split
    · simp
    · refine List.pairwise_append.2 ⟨ih _ _, ih _ _, ?_⟩
      intro i hi j hj
      have hi := (mem_setBits.1 hi).2.1
      have hj := (mem_setBits.1 hj).1
      omega

/-- The members in ascending order. -/
def toList (s : IdSet) : List Nat := setBits (s.bits.log2 / 32).log2.succ 0 s.bits

@[simp] theorem mem_toList {i : Nat} {s : IdSet} : i ∈ s.toList ↔ i ∈ s := by
  rw [toList, mem_setBits, mem_def, Nat.shiftLeft_eq]
  simp only [Nat.zero_le, Nat.zero_add, Nat.sub_zero, true_and, and_iff_right_iff_imp]
  intro h
  apply Nat.lt_of_not_le
  intro hle
  have hlog : s.bits.log2 / 32 < 2 ^ (s.bits.log2 / 32).log2.succ := Nat.lt_log2_self
  have hbits : s.bits < 2 ^ i :=
    Nat.lt_of_lt_of_le Nat.lt_log2_self (Nat.pow_le_pow_right (by decide) (by omega))
  rw [Nat.testBit_lt_two_pow hbits] at h
  exact Bool.false_ne_true h

/-- The members are listed in strictly ascending order. -/
theorem pairwise_toList (s : IdSet) : s.toList.Pairwise (· < ·) := pairwise_setBits _ _ _

/-- The set of the members of a list. -/
def ofList (ids : List Nat) : IdSet := ids.foldl insert ∅

theorem mem_foldl_insert {i : Nat} (ids : List Nat) (s : IdSet) :
    i ∈ ids.foldl insert s ↔ i ∈ s ∨ i ∈ ids := by
  induction ids generalizing s with
  | nil => simp
  | cons j ids ih => simp [ih, or_assoc]

@[simp] theorem mem_ofList {i : Nat} {ids : List Nat} : i ∈ ofList ids ↔ i ∈ ids := by
  simp [ofList, mem_foldl_insert]

end IdSet

end ShiftReduce
