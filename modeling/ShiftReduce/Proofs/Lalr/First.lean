import Mathlib.Algebra.Order.BigOperators.Group.List
import Mathlib.Algebra.Order.Group.Nat
import ShiftReduce.Lalr.First
import ShiftReduce.Proofs.Counting
import ShiftReduce.Proofs.Grammar.Derivation
import ShiftReduce.Proofs.Grammar.WellFormed

/-!
# First sets are exact

The sets computed by `FirstSets.compute` are the ones that derivations define: a nonterminal is
nullable exactly if it vanishes, and a terminal is among the first ones of a nonterminal exactly if
the nonterminal derives a sentential form that begins with it.

Each of the two computations is treated in the same way. Nothing wrong is ever added
(`NullSound`, `Sound`), the repetition ends in a fixed point because every change adds
an identifier, and a fixed point misses nothing. `FirstSets.compute_exact` states all of this at once.
What the rest of the library uses is `FirstSets.mem_ofSymbols_compute`.
-/

namespace ShiftReduce

namespace FirstSets

variable {g : Grammar}

/-! ### Nonterminals that derive the empty text -/

theorem all_symbolNullable {s : IdSet} {xs : List Symbol} :
    xs.all (symbolNullable s) = true ↔ ∀ x ∈ xs, ∃ n, x = .nonterminal n ∧ n ∈ s := by
  rw [List.all_eq_true]
  apply forall₂_congr
  intro x _
  cases x with
  | terminal t => simp [symbolNullable]
  | nonterminal n => simp [symbolNullable]

/-- All nonterminals of the set vanish. -/
def NullSound (g : Grammar) (s : IdSet) : Prop := ∀ n ∈ s, g.Vanishes [.nonterminal n]

theorem NullSound.vanishes {s : IdSet} (hs : NullSound g s) {xs : List Symbol}
    (h : xs.all (symbolNullable s) = true) : g.Vanishes xs := by
  rw [all_symbolNullable] at h
  induction xs with
  | nil => exact .nil
  | cons x xs ih =>
    obtain ⟨hx, hxs⟩ := List.forall_mem_cons.1 h
    obtain ⟨n, rfl, hn⟩ := hx
    exact Grammar.vanishes_cons.2 ⟨hs n hn, ih hxs⟩

/-- What one production adds to the nonterminals that derive the empty text. -/
def nullableStep (s : IdSet) (p : Production) : IdSet :=
  if p.symbols.all (symbolNullable s) then s.insert p.nt else s

theorem nullableRound_eq (g : Grammar) (s : IdSet) :
    nullableRound g s = g.prods.toList.foldl nullableStep s := by
  rw [Array.foldl_toList]
  rfl

theorem card_lt_of_nullableStep {s : IdSet} {p : Production} (h : nullableStep s p ≠ s) :
    s.card < (nullableStep s p).card := by
  unfold nullableStep at h ⊢
  split
  · next hall =>
    rw [if_pos hall] at h
    exact IdSet.card_lt_card_union h
  · next hall =>
    rw [if_neg hall] at h
    exact absurd rfl h

/-- What a round of productions keeps, given that each of them keeps it. -/
theorem foldl_prods {α : Type} {step : α → Production → α} {P : α → Prop}
    (h : ∀ a, P a → ∀ prod ∈ g.prods.toList, P (step a prod)) {a : α} (ha : P a) :
    P (g.prods.toList.foldl step a) :=
  List.foldlRecOn g.prods.toList step ha fun a ha prod hprod => h a ha prod hprod

theorem nullSound_nullableRound {s : IdSet} (hs : NullSound g s) :
    NullSound g (nullableRound g s) := by
  rw [nullableRound_eq]
  refine foldl_prods ?_ hs
  intro s hs prod hprod
  unfold nullableStep
  split
  · next hall =>
    intro n hn
    rcases IdSet.mem_insert.1 hn with hn | rfl
    · exact hs n hn
    · obtain ⟨p, hp, rfl⟩ := Array.getElem_of_mem (Array.mem_toList_iff.1 hprod)
      have hget := Array.getElem?_eq_getElem hp
      rw [← Grammar.lhs_of_getElem? hget]
      refine .cons hp ?_ .nil
      rw [Grammar.rhs_of_getElem? hget]
      exact hs.vanishes hall
  · exact hs

theorem below_nullableRound (hg : g.InRange) {s : IdSet} (hs : s.Below g.nts.size) :
    (nullableRound g s).Below g.nts.size := by
  have hlt := Grammar.forall_mem_prods (P := fun n _ => n < g.nts.size) |>.2 hg.lhs_lt
  rw [nullableRound_eq]
  refine foldl_prods ?_ hs
  intro s hs prod hprod
  unfold nullableStep
  split
  · intro n hn
    rcases IdSet.mem_insert.1 hn with hn | rfl
    · exact hs n hn
    · exact hlt prod hprod
  · exact hs

/-- One more round adds nothing to the nonterminals that derive the empty text. -/
theorem nullableStep_nullableSet (hg : g.InRange) :
    ∀ prod ∈ g.prods.toList, nullableStep (nullableSet g) prod = nullableSet g := by
  have hround (s : IdSet) := foldl_eq_or_size_lt nullableStep IdSet.card (P := fun _ => True)
    (fun _ _ _ => trivial) (fun _ _ _ => card_lt_of_nullableStep) g.prods.toList (a := s) trivial
  have hfixed : nullableRound g (nullableSet g) = nullableSet g := by
    refine untilStable_fixed IdSet.card (P := IdSet.Below g.nts.size)
      (fun _ => below_nullableRound hg) (fun _ => IdSet.card_le_of_below) ?_
      (IdSet.below_empty _) (by omega)
    intro s _ hne
    rw [nullableRound_eq] at hne ⊢
    rcases hround s with ⟨heq, -⟩ | hlt
    · exact absurd heq hne
    · exact hlt
  rw [nullableRound_eq] at hfixed
  rcases hround (nullableSet g) with ⟨-, hall⟩ | hlt
  · exact hall
  · rw [hfixed] at hlt
    exact absurd hlt (Nat.lt_irrefl _)

/-- A nonterminal is nullable exactly if it derives the empty text. -/
theorem mem_nullableSet (hg : g.InRange) {n : Nat} :
    n ∈ nullableSet g ↔ g.Vanishes [.nonterminal n] := by
  constructor
  · have hsound : NullSound g (nullableSet g) :=
      untilStable_induction (P := NullSound g) (fun _ => nullSound_nullableRound) _
        fun n hn => absurd hn (IdSet.not_mem_empty n)
    exact hsound n
  · have hclosed := Grammar.forall_mem_prods
      (P := fun n xs => xs.all (symbolNullable (nullableSet g)) = true → n ∈ nullableSet g) |>.1
      (by
        intro prod hprod hall
        rw [← nullableStep_nullableSet hg prod hprod, nullableStep, if_pos hall]
        exact IdSet.mem_insert.2 (Or.inr rfl))
    have hvanishes : ∀ xs, g.Vanishes xs → xs.all (symbolNullable (nullableSet g)) = true := by
      intro xs h
      induction h with
      | nil => rfl
      | @cons p rest hp _ _ ihrhs ihrest =>
        have hmem := hclosed p hp ihrhs
        rw [List.all_cons, ihrest]
        simp [symbolNullable, hmem]
    intro h
    have := hvanishes _ h
    simpa [symbolNullable] using this

/-! ### First terminals -/

theorem mem_ofSymbols_nonterminal {fs : FirstSets} {follow : IdSet} {n t : Nat}
    {rest : List Symbol} : t ∈ fs.ofSymbols follow (.nonterminal n :: rest) ↔
      t ∈ fs.ofNonterminal n ∨ n ∈ fs.nullable ∧ t ∈ fs.ofSymbols follow rest := by
  rw [ofSymbols]
  split
  · next hn => simp [hn]
  · next hn => simp [hn]

/-- The nullable nonterminals are those that vanish, and nothing wrong is a first terminal. -/
structure Sound (g : Grammar) (fs : FirstSets) : Prop where
  mem_nullable : ∀ n, n ∈ fs.nullable ↔ g.Vanishes [.nonterminal n]
  begins : ∀ n, ∀ t ∈ fs.ofNonterminal n, g.Begins t [.nonterminal n]

theorem Sound.begins_or_vanishes {fs : FirstSets} (hfs : fs.Sound g) {follow : IdSet} {t : Nat}
    {xs : List Symbol} (h : t ∈ fs.ofSymbols follow xs) :
    g.Begins t xs ∨ g.Vanishes xs ∧ t ∈ follow := by
  induction xs with
  | nil => exact Or.inr ⟨.nil, h⟩
  | cons x xs ih =>
    cases x with
    | terminal u =>
      rw [IdSet.mem_single.1 h]
      exact Or.inl (.here xs)
    | nonterminal n =>
      rw [← List.singleton_append, Grammar.begins_append, Grammar.vanishes_append]
      rcases mem_ofSymbols_nonterminal.1 h with h | ⟨hn, h⟩
      · exact Or.inl (Or.inl (hfs.begins n t h))
      · have hn := (hfs.mem_nullable n).1 hn
        rcases ih h with h | ⟨hxs, h⟩
        · exact Or.inl (Or.inr ⟨hn, h⟩)
        · exact Or.inr ⟨⟨hn, hxs⟩, h⟩

/-- What one production adds to the first terminals. -/
def firstStep (fs : FirstSets) (p : Production) : FirstSets :=
  { fs with first := fs.first.modify p.nt fun s => s ∪ fs.ofSymbols ∅ p.symbols }

theorem firstRound_eq (g : Grammar) (fs : FirstSets) :
    firstRound g fs = g.prods.toList.foldl firstStep fs := by
  rw [Array.foldl_toList]
  rfl

theorem ofNonterminal_firstStep (fs : FirstSets) (p : Production) (n : Nat) :
    (firstStep fs p).ofNonterminal n =
      if p.nt = n ∧ n < fs.first.size then fs.ofNonterminal n ∪ fs.ofSymbols ∅ p.symbols
      else fs.ofNonterminal n := by
  simp only [ofNonterminal, firstStep, Array.getElem?_modify]
  by_cases hn : p.nt = n
  · by_cases hlt : n < fs.first.size
    · simp [hn, hlt]
    · simp [hn, hlt]
  · simp [hn]

theorem sound_firstStep {fs : FirstSets} (hfs : fs.Sound g) {prod : Production}
    (hprod : prod ∈ g.prods.toList) : (firstStep fs prod).Sound g := by
  refine ⟨hfs.mem_nullable, ?_⟩
  intro n t ht
  rw [ofNonterminal_firstStep] at ht
  split at ht
  · next hn =>
    rcases IdSet.mem_union.1 ht with ht | ht
    · exact hfs.begins n t ht
    · rcases hfs.begins_or_vanishes ht with ht | ⟨-, ht⟩
      · obtain ⟨p, hp, rfl⟩ := Array.getElem_of_mem (Array.mem_toList_iff.1 hprod)
        have hget := Array.getElem?_eq_getElem hp
        rw [← Grammar.rhs_of_getElem? hget] at ht
        rw [← hn.1, ← Grammar.lhs_of_getElem? hget]
        exact .inside [] hp ht
      · exact absurd ht (IdSet.not_mem_empty t)
  · exact hfs.begins n t ht

/-- The number of all first terminals. -/
def weight (fs : FirstSets) : Nat := (fs.first.toList.map IdSet.card).sum

/-- What a round keeps: there is one set of terminals for each nonterminal. -/
structure Shaped (g : Grammar) (fs : FirstSets) : Prop where
  size_eq : fs.first.size = g.nts.size
  below : ∀ n, (fs.ofNonterminal n).Below g.terminals.size

theorem below_ofSymbols {fs : FirstSets} {bound : Nat}
    (hfs : ∀ n, (fs.ofNonterminal n).Below bound) {follow : IdSet} (hfollow : follow.Below bound)
    {xs : List Symbol} (hxs : ∀ t, .terminal t ∈ xs → t < bound) :
    (fs.ofSymbols follow xs).Below bound := by
  induction xs with
  | nil => exact hfollow
  | cons x xs ih =>
    cases x with
    | terminal u =>
      intro t ht
      rw [IdSet.mem_single.1 ht]
      exact hxs u List.mem_cons_self
    | nonterminal n =>
      intro t ht
      rcases mem_ofSymbols_nonterminal.1 ht with ht | ⟨-, ht⟩
      · exact hfs n t ht
      · exact ih (fun t ht => hxs t (List.mem_cons_of_mem _ ht)) t ht

theorem shaped_firstStep (hg : g.InRange) {fs : FirstSets} (hfs : fs.Shaped g)
    {prod : Production} (hprod : prod ∈ g.prods.toList) : (firstStep fs prod).Shaped g := by
  refine ⟨by simpa [firstStep] using hfs.size_eq, ?_⟩
  have hlt := Grammar.forall_mem_prods
    (P := fun _ xs => ∀ t, .terminal t ∈ xs → t < g.terminals.size) |>.2
    fun p _ => hg.terminal_lt p
  intro n
  rw [ofNonterminal_firstStep]
  split
  · exact IdSet.below_union (hfs.below n)
      (below_ofSymbols hfs.below (IdSet.below_empty _) (hlt prod hprod))
  · exact hfs.below n

theorem weight_le {fs : FirstSets} (hfs : fs.Shaped g) :
    fs.weight ≤ g.nts.size * g.terminals.size := by
  have hcard : ∀ k ∈ fs.first.toList.map IdSet.card, k ≤ g.terminals.size := by
    intro k hk
    obtain ⟨s, hs, rfl⟩ := List.mem_map.1 hk
    obtain ⟨n, hn, rfl⟩ := Array.getElem_of_mem (Array.mem_toList_iff.1 hs)
    have := IdSet.card_le_of_below (hfs.below n)
    rwa [ofNonterminal, Array.getElem?_eq_getElem hn, Option.getD_some] at this
  have hsum := List.sum_le_card_nsmul _ _ hcard
  rwa [List.length_map, Array.length_toList, hfs.size_eq] at hsum

theorem modify_union_eq_or_sum_lt (t : IdSet) (sets : List IdSet) (i : Nat) :
    sets.modify i (· ∪ t) = sets ∨
      (sets.map IdSet.card).sum < ((sets.modify i (· ∪ t)).map IdSet.card).sum := by
  induction sets generalizing i with
  | nil => simp
  | cons s sets ih =>
    cases i with
    | zero =>
      by_cases h : s ∪ t = s
      · simp [h]
      · have := IdSet.card_lt_card_union h
        simp [this]
    | succ i =>
      rcases ih i with h | h
      · simp [h]
      · simp [h]

/-- A production that changes the first terminals makes them more. -/
theorem weight_lt_of_firstStep {fs : FirstSets} {p : Production} (h : firstStep fs p ≠ fs) :
    fs.weight < (firstStep fs p).weight := by
  rw [weight, weight, firstStep, Array.toList_modify]
  rcases modify_union_eq_or_sum_lt (fs.ofSymbols ∅ p.symbols) fs.first.toList p.nt with heq | hlt
  · rw [← Array.toList_modify] at heq
    rw [firstStep, Array.toList_inj.1 heq] at h
    exact absurd rfl h
  · exact hlt

theorem compute_spec (hg : g.InRange) : (compute g).Sound g ∧ (compute g).Shaped g ∧
    ∀ prod ∈ g.prods.toList, firstStep (compute g) prod = compute g := by
  have hstart (n : Nat) : (⟨nullableSet g, Array.replicate g.nts.size ∅⟩ : FirstSets).ofNonterminal
      n = ∅ := by
    simp only [ofNonterminal, Array.getElem?_replicate]
    split <;> rfl
  have hsound : (⟨nullableSet g, Array.replicate g.nts.size ∅⟩ : FirstSets).Sound g :=
    ⟨fun n => mem_nullableSet hg, fun n t ht => by
      rw [hstart] at ht; exact absurd ht (IdSet.not_mem_empty t)⟩
  have hshaped : (⟨nullableSet g, Array.replicate g.nts.size ∅⟩ : FirstSets).Shaped g :=
    ⟨by simp, fun n => by rw [hstart]; exact IdSet.below_empty _⟩
  have hround (fs : FirstSets) := foldl_eq_or_size_lt firstStep weight (P := fun _ => True)
    (fun _ _ _ => trivial) (fun _ _ _ => weight_lt_of_firstStep) g.prods.toList (a := fs) trivial
  have hkeeps (fs : FirstSets) (h : fs.Shaped g) : (firstRound g fs).Shaped g := by
    rw [firstRound_eq]
    exact foldl_prods (P := Shaped g) (fun _ h _ hprod => shaped_firstStep hg h hprod) h
  have hfixed : firstRound g (compute g) = compute g := by
    refine untilStable_fixed weight (P := Shaped g) hkeeps (fun _ => weight_le) ?_
      hshaped (by omega)
    intro fs _ hne
    rw [firstRound_eq] at hne ⊢
    rcases hround fs with ⟨heq, -⟩ | hlt
    · exact absurd heq hne
    · exact hlt
  refine ⟨?_, untilStable_induction hkeeps _ hshaped, ?_⟩
  · refine untilStable_induction ?_ _ hsound
    intro fs h
    rw [firstRound_eq]
    exact foldl_prods (P := Sound g) (fun _ h _ hprod => sound_firstStep h hprod) h
  · rw [firstRound_eq] at hfixed
    rcases hround (compute g) with ⟨-, hall⟩ | hlt
    · exact hall
    · rw [hfixed] at hlt
      exact absurd hlt (Nat.lt_irrefl _)

theorem begins_mem_ofSymbols (hg : g.InRange) {t : Nat} {xs : List Symbol} (h : g.Begins t xs)
    (follow : IdSet) : t ∈ (compute g).ofSymbols follow xs := by
  obtain ⟨hsound, hshaped, hclosed⟩ := compute_spec hg
  induction h generalizing follow with
  | here rest => exact IdSet.mem_single.2 rfl
  | @inside p rest hp _ ih =>
    refine mem_ofSymbols_nonterminal.2 (Or.inl ?_)
    have hget := Array.getElem?_eq_getElem hp
    have hlt : g.lhs p < (compute g).first.size := by
      rw [hshaped.size_eq]
      exact hg.lhs_lt p hp
    rw [← hclosed _ (Array.getElem_mem_toList hp), ofNonterminal_firstStep,
      ← Grammar.lhs_of_getElem? hget, ← Grammar.rhs_of_getElem? hget, if_pos ⟨rfl, hlt⟩]
    exact IdSet.mem_union.2 (Or.inr (ih ∅))
  | behind hn _ ih =>
    exact mem_ofSymbols_nonterminal.2 (Or.inr ⟨(hsound.mem_nullable _).2 hn, ih follow⟩)

theorem vanishes_mem_ofSymbols (hg : g.InRange) {xs : List Symbol} (h : g.Vanishes xs)
    {follow : IdSet} {t : Nat} (ht : t ∈ follow) : t ∈ (compute g).ofSymbols follow xs := by
  have hsound := (compute_spec hg).1
  induction h with
  | nil => exact ht
  | cons hp hrhs _ _ ihrest =>
    exact mem_ofSymbols_nonterminal.2
      (Or.inr ⟨(hsound.mem_nullable _).2 (.cons hp hrhs .nil), ihrest⟩)

/-- The terminals computed for a list of symbols are those with which a derived sentential form can
begin, and those that may follow if the symbols can vanish. -/
theorem mem_ofSymbols_compute (hg : g.InRange) {follow : IdSet} {t : Nat} {xs : List Symbol} :
    t ∈ (compute g).ofSymbols follow xs ↔ g.Begins t xs ∨ g.Vanishes xs ∧ t ∈ follow := by
  constructor
  · exact (compute_spec hg).1.begins_or_vanishes
  · rintro (h | ⟨h, ht⟩)
    · exact begins_mem_ofSymbols hg h follow
    · exact vanishes_mem_ofSymbols hg h ht

/-! ### The fixed points -/

theorem nullable_compute (g : Grammar) : (compute g).nullable = nullableSet g := by
  have hstep : ∀ fs : FirstSets, fs.nullable = nullableSet g → ∀ prod ∈ g.prods.toList,
      (firstStep fs prod).nullable = nullableSet g := fun _ h _ _ => h
  refine untilStable_induction (P := fun fs : FirstSets => fs.nullable = nullableSet g) ?_ _ rfl
  intro fs hfs
  rw [firstRound_eq]
  exact foldl_prods hstep hfs

theorem nullableRound_nullableSet (hg : g.InRange) :
    nullableRound g (nullableSet g) = nullableSet g := by
  rw [nullableRound_eq]
  refine foldl_prods (P := (· = nullableSet g)) ?_ rfl
  rintro _ rfl prod hprod
  exact nullableStep_nullableSet hg prod hprod

theorem firstRound_compute (hg : g.InRange) : firstRound g (compute g) = compute g := by
  rw [firstRound_eq]
  refine foldl_prods (P := (· = compute g)) ?_ rfl
  rintro _ rfl prod hprod
  exact (compute_spec hg).2.2 prod hprod

theorem mem_ofNonterminal_compute (hg : g.InRange) {n t : Nat} :
    t ∈ (compute g).ofNonterminal n ↔ g.Begins t [.nonterminal n] := by
  refine ⟨(compute_spec hg).1.begins n t, fun h => ?_⟩
  rcases mem_ofSymbols_nonterminal.1 (begins_mem_ofSymbols hg h ∅) with h | ⟨-, h⟩
  · exact h
  · exact absurd h (IdSet.not_mem_empty t)

/-- The first sets of a grammar whose symbols exist are exact. Both repetitions end because a round
adds nothing. The nullable nonterminals are those that derive the empty text, and the first terminals
of a nonterminal are those with which a sentential form derived from it can begin. For a list of
symbols they are the terminals with which a form derived from the list can begin, together with those
that may follow if the list derives the empty text. -/
theorem compute_exact (hg : g.InRange) :
    (∃ k ≤ g.nts.size + 1, (nullableRound g)^[k] ∅ = (compute g).nullable) ∧
    nullableRound g (compute g).nullable = (compute g).nullable ∧
    (∃ k ≤ g.nts.size * g.terminals.size + 1,
      (firstRound g)^[k] ⟨(compute g).nullable, Array.replicate g.nts.size ∅⟩ = compute g) ∧
    firstRound g (compute g) = compute g ∧
    (∀ n, n ∈ (compute g).nullable ↔ g.Derives [.nonterminal n] []) ∧
    (∀ n t, t ∈ (compute g).ofNonterminal n ↔
      ∃ ys, g.Derives [.nonterminal n] (.terminal t :: ys)) ∧
    ∀ (xs : List Symbol) (follow : IdSet) (t : Nat), t ∈ (compute g).ofSymbols follow xs ↔
      (∃ ys, g.Derives xs (.terminal t :: ys)) ∨ g.Derives xs [] ∧ t ∈ follow := by
  rw [nullable_compute]
  refine ⟨exists_iterate_untilStable _ _ _, nullableRound_nullableSet hg,
    exists_iterate_untilStable _ _ _, firstRound_compute hg, ?_, ?_, ?_⟩
  · intro n
    rw [mem_nullableSet hg, Grammar.vanishes_iff_derives]
  · intro n t
    rw [mem_ofNonterminal_compute hg, Grammar.begins_iff_derives]
  · intro xs follow t
    rw [mem_ofSymbols_compute hg, Grammar.begins_iff_derives, Grammar.vanishes_iff_derives]

/-- The grammar `Z = d | X Y Z`, `Y = c |`, `X = Y | a`. -/
def sequences : Grammar :=
  { terminals := #[⟨"a", some (.char 'a'), false, false, none⟩,
      ⟨"c", some (.char 'c'), false, false, none⟩, ⟨"d", some (.char 'd'), false, false, none⟩,
      ⟨"$end", none, false, false, none⟩]
    nts := #[⟨"X", [4, 5]⟩, ⟨"Y", [2, 3]⟩, ⟨"Z", [0, 1]⟩]
    prods := #[⟨2, [.terminal 2], none⟩,
      ⟨2, [.nonterminal 0, .nonterminal 1, .nonterminal 2], none⟩, ⟨1, [.terminal 1], none⟩,
      ⟨1, [], none⟩, ⟨0, [.nonterminal 1], none⟩, ⟨0, [.terminal 0], none⟩]
    precs := #[]
    start := 2
    eof := 3
    error := none }

/-- `X` can vanish in front of `Y` and `Z`, so that `Z` can begin with `c` behind it. -/
theorem compute_exact_sequences : sequences.InRange ∧ 0 ∈ (compute sequences).nullable ∧
    sequences.Derives [.nonterminal 0] [] ∧ 1 ∈ (compute sequences).ofNonterminal 2 ∧
    (∃ ys, sequences.Derives [.nonterminal 2] (.terminal 1 :: ys)) ∧
    3 ∈ (compute sequences).ofSymbols (IdSet.single 3) [.nonterminal 0, .nonterminal 1] ∧
    sequences.Derives [.nonterminal 0, .nonterminal 1] [] := by
  have hrange : sequences.InRange := (by decide : sequences.WellFormed).toInRange
  obtain ⟨-, -, -, -, hnullable, hfirst, hsymbols⟩ := compute_exact hrange
  have hX : 0 ∈ (compute sequences).nullable := by decide +kernel
  have hZ : 1 ∈ (compute sequences).ofNonterminal 2 := by decide +kernel
  have hXY : 3 ∈ (compute sequences).ofSymbols (IdSet.single 3)
      [.nonterminal 0, .nonterminal 1] := by decide +kernel
  refine ⟨hrange, hX, (hnullable 0).1 hX, hZ, (hfirst 2 1).1 hZ, hXY, ?_⟩
  rcases (hsymbols _ _ 3).1 hXY with ⟨ys, hys⟩ | ⟨hempty, -⟩
  · -- the terminal `3` is the end of the input, which occurs in no production
    have hmem := (hsymbols [.nonterminal 0, .nonterminal 1] ∅ 3).2 (Or.inl ⟨ys, hys⟩)
    exact absurd hmem (by decide +kernel)
  · exact hempty

end FirstSets

end ShiftReduce
