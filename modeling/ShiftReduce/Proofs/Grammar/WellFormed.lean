import Mathlib.Data.List.Nodup
import ShiftReduce.Grammar.Basic

/-!
# Well-formed grammars

A grammar is well formed if every symbol that it mentions exists, if the terminal for the end of the
input occurs in no production, and if the lists of productions of the nonterminals hold productions
of these nonterminals, each once. `Draft.build` makes no other grammars. It does not promise that
every production is on the list of its nonterminal; where that is needed it is asked for as
`Grammar.ListsAll`.

The tables are built from an augmented grammar. `Grammar.IsAugmented` collects what the
construction relies on, and `isAugmented_augment` says that augmenting a well-formed grammar
provides it.
-/

namespace ShiftReduce

namespace Grammar

variable {g : Grammar}

/-- Every symbol that a production mentions exists. -/
structure InRange (g : Grammar) : Prop where
  lhs_lt : ∀ p < g.prods.size, g.lhs p < g.nts.size
  nonterminal_lt : ∀ p n, .nonterminal n ∈ g.rhs p → n < g.nts.size
  terminal_lt : ∀ p t, .terminal t ∈ g.rhs p → t < g.terminals.size

/-- The productions listed for a nonterminal are its own, and each is listed once. -/
structure ListsOwn (g : Grammar) : Prop where
  nodup_prodsOf : ∀ n, (g.prodsOf n).Nodup
  lt_of_mem_prodsOf : ∀ n, ∀ p ∈ g.prodsOf n, p < g.prods.size
  lhs_of_mem_prodsOf : ∀ n, ∀ p ∈ g.prodsOf n, g.lhs p = n

/-- Every symbol exists, the end of the input is in no production, and the productions listed for a
nonterminal are its own. -/
structure WellFormed (g : Grammar) : Prop extends InRange g, ListsOwn g where
  start_lt : g.start < g.nts.size
  eof_lt : g.eof < g.terminals.size
  eof_not_mem : ∀ p, .terminal g.eof ∉ g.rhs p

/-- Every production is on the list of its nonterminal. -/
def ListsAll (g : Grammar) : Prop := ∀ p < g.prods.size, p ∈ g.prodsOf (g.lhs p)

/-- What the construction of the tables relies on: a well-formed grammar, and a last production
`S' -> S $end` whose nonterminal occurs in no production and whose terminal occurs in no other. -/
structure IsAugmented (g : Grammar) : Prop extends InRange g, ListsOwn g where
  size_pos : 0 < g.prods.size
  eof_lt : g.eof < g.terminals.size
  rhs_acceptProd : ∃ s, g.rhs g.acceptProd = [.nonterminal s, .terminal g.eof]
  eq_acceptProd_of_eof : ∀ p, .terminal g.eof ∈ g.rhs p → p = g.acceptProd
  fresh_start : ∀ p, .nonterminal (g.lhs g.acceptProd) ∉ g.rhs p

/-- A symbol of the grammar other than the end of the input. -/
def Within (g : Grammar) : Symbol → Prop
  | .nonterminal n => n < g.nts.size
  | .terminal t => t < g.terminals.size ∧ t ≠ g.eof

instance (g : Grammar) : DecidablePred g.Within
  | .nonterminal n => inferInstanceAs (Decidable (n < g.nts.size))
  | .terminal t => inferInstanceAs (Decidable (t < g.terminals.size ∧ t ≠ g.eof))

theorem lt_size_of_mem_rhs {p : Nat} {x : Symbol} (h : x ∈ g.rhs p) : p < g.prods.size := by
  by_contra hp
  rw [rhs, Array.getElem?_eq_none (Nat.le_of_not_lt hp)] at h
  simp at h

theorem prodsOf_eq_nil {n : Nat} (hn : g.nts.size ≤ n) : g.prodsOf n = [] := by
  simp [prodsOf, Array.getElem?_eq_none hn]

/-- Whether a grammar is well formed can be seen from its productions and nonterminals. -/
theorem wellFormed_iff : g.WellFormed ↔
    (∀ p < g.prods.size, g.lhs p < g.nts.size ∧ ∀ x ∈ g.rhs p, g.Within x) ∧
    (∀ n < g.nts.size, (g.prodsOf n).Nodup ∧ ∀ p ∈ g.prodsOf n, p < g.prods.size ∧ g.lhs p = n) ∧
    g.start < g.nts.size ∧ g.eof < g.terminals.size := by
  constructor
  · intro h
    refine ⟨?_, ?_, h.start_lt, h.eof_lt⟩
    · intro p hp
      refine ⟨h.lhs_lt p hp, ?_⟩
      rintro (n | t) hx
      · exact h.nonterminal_lt p n hx
      · refine ⟨h.terminal_lt p t hx, ?_⟩
        rintro rfl
        exact h.eof_not_mem p hx
    · intro n _
      exact ⟨h.nodup_prodsOf n, fun p hp => ⟨h.lt_of_mem_prodsOf n p hp,
        h.lhs_of_mem_prodsOf n p hp⟩⟩
  · rintro ⟨hprods, hnts, hstart, heof⟩
    have hrhs : ∀ {p x}, x ∈ g.rhs p → g.Within x := fun hx =>
      (hprods _ (lt_size_of_mem_rhs hx)).2 _ hx
    have hlists : ∀ n, (g.prodsOf n).Nodup ∧
        ∀ p ∈ g.prodsOf n, p < g.prods.size ∧ g.lhs p = n := by
      intro n
      by_cases hn : n < g.nts.size
      · exact hnts n hn
      · rw [prodsOf_eq_nil (Nat.le_of_not_lt hn)]
        exact ⟨List.nodup_nil, fun p hp => absurd hp List.not_mem_nil⟩
    exact
      { lhs_lt := fun p hp => (hprods p hp).1
        nonterminal_lt := fun p n hn => hrhs hn
        terminal_lt := fun p t ht => (hrhs ht).1
        nodup_prodsOf := fun n => (hlists n).1
        lt_of_mem_prodsOf := fun n p hp => ((hlists n).2 p hp).1
        lhs_of_mem_prodsOf := fun n p hp => ((hlists n).2 p hp).2
        start_lt := hstart
        eof_lt := heof
        eof_not_mem := fun p hp => (hrhs hp).2 rfl }

instance (g : Grammar) : Decidable g.WellFormed := decidable_of_iff _ wellFormed_iff.symm

instance (g : Grammar) : Decidable g.ListsAll :=
  inferInstanceAs (Decidable (∀ p < g.prods.size, p ∈ g.prodsOf (g.lhs p)))

theorem IsAugmented.acceptProd_lt (h : g.IsAugmented) : g.acceptProd < g.prods.size :=
  Nat.sub_lt h.size_pos Nat.one_pos

theorem lhs_of_getElem? {p : Nat} {prod : Production} (h : g.prods[p]? = some prod) :
    g.lhs p = prod.nt := by
  simp [lhs, h]

theorem rhs_of_getElem? {p : Nat} {prod : Production} (h : g.prods[p]? = some prod) :
    g.rhs p = prod.symbols := by
  simp [rhs, h]

/-- A statement about all productions, by their numbers or by themselves. -/
theorem forall_mem_prods {P : Nat → List Symbol → Prop} :
    (∀ prod ∈ g.prods.toList, P prod.nt prod.symbols) ↔
      ∀ p < g.prods.size, P (g.lhs p) (g.rhs p) := by
  constructor
  · intro h p hp
    have hget := Array.getElem?_eq_getElem hp
    rw [lhs_of_getElem? hget, rhs_of_getElem? hget]
    exact h _ (Array.getElem_mem_toList hp)
  · intro h prod hprod
    obtain ⟨p, hp, rfl⟩ := Array.getElem_of_mem (Array.mem_toList_iff.1 hprod)
    have hget := Array.getElem?_eq_getElem hp
    rw [← lhs_of_getElem? hget, ← rhs_of_getElem? hget]
    exact h p hp

/-! ### Augmented grammars -/

@[simp] theorem terminals_augment (g : Grammar) : g.augment.terminals = g.terminals := rfl

@[simp] theorem eof_augment (g : Grammar) : g.augment.eof = g.eof := rfl

@[simp] theorem size_nts_augment (g : Grammar) : g.augment.nts.size = g.nts.size + 1 := by
  simp [augment]

@[simp] theorem size_prods_augment (g : Grammar) : g.augment.prods.size = g.prods.size + 1 := by
  simp [augment]

@[simp] theorem acceptProd_augment (g : Grammar) : g.augment.acceptProd = g.prods.size := by
  simp [acceptProd]

theorem ne_acceptProd {p : Nat} (hp : p < g.prods.size) : p ≠ g.augment.acceptProd := by
  rw [acceptProd_augment]
  exact Nat.ne_of_lt hp

/-- The productions of the grammar keep their left-hand sides. -/
theorem lhs_augment {p : Nat} (hp : p < g.prods.size) : g.augment.lhs p = g.lhs p := by
  simp [lhs, augment, Array.getElem?_push_lt hp, Array.getElem?_eq_getElem hp]

/-- The productions of the grammar keep their right-hand sides. -/
theorem rhs_augment {p : Nat} (hp : p < g.prods.size) : g.augment.rhs p = g.rhs p := by
  simp [rhs, augment, Array.getElem?_push_lt hp, Array.getElem?_eq_getElem hp]

theorem lhs_augment_size (g : Grammar) : g.augment.lhs g.prods.size = g.nts.size := by
  simp [lhs, augment]

theorem rhs_augment_size (g : Grammar) :
    g.augment.rhs g.prods.size = [.nonterminal g.start, .terminal g.eof] := by
  simp [rhs, augment]

/-- The nonterminals of the grammar keep their productions. -/
theorem prodsOf_augment {n : Nat} (hn : n < g.nts.size) : g.augment.prodsOf n = g.prodsOf n := by
  simp [prodsOf, augment, Array.getElem?_push_lt hn, Array.getElem?_eq_getElem hn]

theorem prodsOf_augment_size (g : Grammar) : g.augment.prodsOf g.nts.size = [g.prods.size] := by
  simp [prodsOf, augment]

/-- The productions of the grammar keep their groups, and the new one has none. -/
theorem prodPrec_augment (g : Grammar) (p : Nat) : g.augment.prodPrec p = g.prodPrec p := by
  rw [prodPrec, prodPrec, augment, Array.getElem?_push]
  split
  · next heq =>
    rw [heq, Array.getElem?_eq_none (Nat.le_refl _)]
    rfl
  · rfl

/-- A symbol of the augmented grammar is one of the grammar or stands in the new production. -/
theorem mem_rhs_augment {p : Nat} {x : Symbol} (h : x ∈ g.augment.rhs p) :
    x ∈ g.rhs p ∧ p < g.prods.size ∨
      p = g.prods.size ∧ (x = .nonterminal g.start ∨ x = .terminal g.eof) := by
  have hp := lt_size_of_mem_rhs h
  rw [size_prods_augment] at hp
  rcases Nat.lt_succ_iff_lt_or_eq.1 hp with hlt | heq
  · rw [rhs_augment hlt] at h
    exact Or.inl ⟨h, hlt⟩
  · rw [heq, rhs_augment_size] at h
    exact Or.inr ⟨heq, by simpa using h⟩

/-- A listed production of the augmented grammar is one of the grammar or the new one. -/
theorem mem_prodsOf_augment {n p : Nat} (h : p ∈ g.augment.prodsOf n) :
    n < g.nts.size ∧ p ∈ g.prodsOf n ∨ n = g.nts.size ∧ p = g.prods.size := by
  rcases Nat.lt_trichotomy n g.nts.size with hlt | heq | hgt
  · rw [prodsOf_augment hlt] at h
    exact Or.inl ⟨hlt, h⟩
  · rw [heq, prodsOf_augment_size] at h
    exact Or.inr ⟨heq, List.mem_singleton.1 h⟩
  · rw [prodsOf_eq_nil (by rw [size_nts_augment]; exact hgt)] at h
    simp at h

/-- Augmenting a well-formed grammar provides what the construction of the tables relies on. -/
theorem isAugmented_augment (h : g.WellFormed) : g.augment.IsAugmented where
  size_pos := by simp
  eof_lt := h.eof_lt
  lhs_lt p hp := by
    rw [size_prods_augment] at hp
    rcases Nat.lt_succ_iff_lt_or_eq.1 hp with hlt | rfl
    · rw [lhs_augment hlt, size_nts_augment]
      exact Nat.lt_succ_of_lt (h.lhs_lt p hlt)
    · rw [lhs_augment_size, size_nts_augment]
      exact Nat.lt_succ_self _
  nonterminal_lt p n hn := by
    rw [size_nts_augment]
    rcases mem_rhs_augment hn with ⟨hmem, -⟩ | ⟨-, heq | heq⟩
    · exact Nat.lt_succ_of_lt (h.nonterminal_lt p n hmem)
    · rw [Symbol.nonterminal.inj heq]
      exact Nat.lt_succ_of_lt h.start_lt
    · exact Symbol.noConfusion heq
  terminal_lt p t ht := by
    rcases mem_rhs_augment ht with ⟨hmem, -⟩ | ⟨-, heq | heq⟩
    · exact h.terminal_lt p t hmem
    · exact Symbol.noConfusion heq
    · rw [Symbol.terminal.inj heq]
      exact h.eof_lt
  nodup_prodsOf n := by
    rcases Nat.lt_trichotomy n g.nts.size with hlt | rfl | hgt
    · rw [prodsOf_augment hlt]
      exact h.nodup_prodsOf n
    · rw [prodsOf_augment_size]
      exact List.nodup_singleton _
    · rw [prodsOf_eq_nil (by rw [size_nts_augment]; exact hgt)]
      exact List.nodup_nil
  lt_of_mem_prodsOf n p hp := by
    rw [size_prods_augment]
    rcases mem_prodsOf_augment hp with ⟨-, hmem⟩ | ⟨-, rfl⟩
    · exact Nat.lt_succ_of_lt (h.lt_of_mem_prodsOf n p hmem)
    · exact Nat.lt_succ_self _
  lhs_of_mem_prodsOf n p hp := by
    rcases mem_prodsOf_augment hp with ⟨-, hmem⟩ | ⟨rfl, rfl⟩
    · rw [lhs_augment (h.lt_of_mem_prodsOf n p hmem)]
      exact h.lhs_of_mem_prodsOf n p hmem
    · exact lhs_augment_size g
  rhs_acceptProd := ⟨g.start, by rw [acceptProd_augment, rhs_augment_size, eof_augment]⟩
  eq_acceptProd_of_eof p hp := by
    rcases mem_rhs_augment hp with ⟨hmem, -⟩ | ⟨heq, -⟩
    · exact absurd hmem (h.eof_not_mem p)
    · rw [acceptProd_augment, heq]
  fresh_start p hp := by
    rw [acceptProd_augment, lhs_augment_size] at hp
    rcases mem_rhs_augment hp with ⟨hmem, -⟩ | ⟨-, heq | heq⟩
    · exact Nat.lt_irrefl _ (h.nonterminal_lt p _ hmem)
    · have hstart := h.start_lt
      rw [← Symbol.nonterminal.inj heq] at hstart
      exact Nat.lt_irrefl _ hstart
    · exact Symbol.noConfusion heq

/-- If every production is listed, it still is after augmenting. -/
theorem listsAll_augment (hg : g.WellFormed) (h : g.ListsAll) : g.augment.ListsAll := by
  intro p hp
  rw [size_prods_augment] at hp
  rcases Nat.lt_succ_iff_lt_or_eq.1 hp with hlt | rfl
  · rw [lhs_augment hlt, prodsOf_augment (hg.lhs_lt p hlt)]
    exact h p hlt
  · rw [lhs_augment_size, prodsOf_augment_size]
    exact List.mem_singleton_self _

end Grammar

end ShiftReduce
