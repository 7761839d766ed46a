import Mathlib.Order.Lattice.Nat
import ShiftReduce.Proofs.Lalr.Halting

/-!
# Cycles and hidden left recursion

Tables may reduce for ever if precedence has settled a conflict. Two shapes of a grammar allow it: a
nonterminal that derives itself (`Grammar.IsCyclic`), and one that derives a form in which it comes
again behind symbols that vanish (`Grammar.HidesLeftRecursion`). Of a grammar that has neither, all
tables come to an end, however its conflicts were settled (`Made.halts_of_not_recursive`).

Without hidden left recursion there is a bound on how many symbols that vanish can be read at the end
of what has been read (`exists_room`). For each of them may belong to a production of its own, but the
nonterminals of these productions come behind each other, and none comes behind itself (`Before`).
Without cycles a symbol is not replaced for ever by nonterminals that derive it alone.
-/

namespace ShiftReduce

open Collection (walk)
open Relation (ReflTransGen TransGen)

namespace Grammar

variable {g : Grammar}

/-- A nonterminal that can be reached derives itself. -/
def IsCyclic (g : Grammar) : Prop :=
  ∃ n, Canonical.Reachable g.augment n ∧ TransGen g.Rewrites [.nonterminal n] [.nonterminal n]

/-- The nonterminal `m` can be reached, and it derives a form in which `n` comes behind symbols that
derive the empty text. -/
def Before (g : Grammar) (m n : Nat) : Prop :=
  Canonical.Reachable g.augment m ∧ ∃ ν ρ, ν ≠ [] ∧ g.Derives ν [] ∧
    g.Derives [.nonterminal m] (ν ++ .nonterminal n :: ρ)

/-- A nonterminal comes behind itself, though only behind symbols that derive the empty text. -/
def HidesLeftRecursion (g : Grammar) : Prop := ∃ n, g.Before n n

/-- If every production has a terminal in it, nothing but the empty form vanishes. -/
theorem eq_nil_of_vanishes (h : ∀ p < g.prods.size, ∃ t, .terminal t ∈ g.rhs p) {ν : List Symbol}
    (hν : g.Vanishes ν) : ν = [] := by
  cases hν with
  | nil => rfl
  | @cons p _ hp hrhs _ =>
    obtain ⟨t, ht⟩ := h p hp
    exact absurd ht (not_mem_of_vanishes hrhs)

/-- If every production has a terminal in it, the grammar is not recursive in either way. -/
theorem not_recursive_of_terminals (h : ∀ p < g.prods.size, ∃ t, .terminal t ∈ g.rhs p) :
    ¬ g.IsCyclic ∧ ¬ g.HidesLeftRecursion := by
  constructor
  · rintro ⟨n, -, hcycle⟩
    -- a terminal stays in a form once it is there
    have hstays : ∀ {xs ys : List Symbol}, TransGen g.Rewrites xs ys → ∃ t, .terminal t ∈ ys := by
      intro xs ys hder
      cases hder with
      | single hstep =>
        cases hstep with
        | intro before after hp =>
          obtain ⟨t, ht⟩ := h _ hp
          exact ⟨t, by simp [ht]⟩
      | tail _ hstep =>
        cases hstep with
        | intro before after hp =>
          obtain ⟨t, ht⟩ := h _ hp
          exact ⟨t, by simp [ht]⟩
    obtain ⟨t, ht⟩ := hstays hcycle
    exact absurd (List.mem_singleton.1 ht) (by simp)
  · rintro ⟨n, -, ν, ρ, hne, hν, -⟩
    exact hne (eq_nil_of_vanishes h (vanishes_iff_derives.2 hν))

/-- The accepting production derives no empty text, so it makes no difference to what vanishes. -/
theorem vanishes_augment {ν : List Symbol} : g.augment.Vanishes ν ↔ g.Vanishes ν := by
  constructor
  · intro h
    induction h with
    | nil => exact .nil
    | @cons p _ hp hrhs _ ihrhs ihrest =>
      have hlt := Tables.ConflictFree.lt_of_vanishes_rhs hp hrhs
      rw [rhs_augment hlt] at ihrhs
      rw [lhs_augment hlt]
      exact .cons hlt ihrhs ihrest
  · intro h
    induction h with
    | nil => exact .nil
    | @cons p _ hp hrhs _ ihrhs ihrest =>
      rw [← rhs_augment hp] at ihrhs
      rw [← lhs_augment hp]
      refine .cons ?_ ihrhs ihrest
      rw [size_prods_augment]
      exact Nat.lt_succ_of_lt hp

/-! ### Nonterminals that come behind each other -/

theorem Before.trans {m n k : Nat} (h : g.Before m n) (h' : g.Before n k) : g.Before m k := by
  obtain ⟨hm, ν, ρ, hne, hν, hder⟩ := h
  obtain ⟨-, ν', ρ', -, hν', hder'⟩ := h'
  refine ⟨hm, ν ++ ν', ρ' ++ ρ, by simp [hne], ?_, ?_⟩
  · exact ((hν.append_right ν').trans hν')
  · have := ((hder'.append_right ρ).append_left ν)
    simp only [List.append_assoc, List.cons_append, List.nil_append] at this ⊢
    exact hder.trans this

open Classical in
/-- The number of nonterminals that `n` comes behind. -/
noncomputable def rank (g : Grammar) (n : Nat) : Nat :=
  ((Finset.range g.nts.size).filter fun m => g.Before m n).card

theorem rank_le_of_imp {m n : Nat} (h : ∀ k, g.Before k m → g.Before k n) : g.rank m ≤ g.rank n := by
  classical
  refine Finset.card_le_card fun k hk => ?_
  simp only [Finset.mem_filter] at hk ⊢
  exact ⟨hk.1, h k hk.2⟩

/-- What a nonterminal derives in front comes behind all that it comes behind. -/
theorem rank_le_of_derives {m n : Nat} {ρ : List Symbol}
    (h : g.Derives [.nonterminal m] (.nonterminal n :: ρ)) : g.rank m ≤ g.rank n := by
  refine rank_le_of_imp ?_
  rintro k ⟨hk, ν, ρ', hne, hν, hder⟩
  have hinner := (h.append_right ρ').append_left ν
  exact ⟨hk, ν, ρ ++ ρ', hne, hν, hder.trans hinner⟩

theorem rank_lt_of_before (hidden : ¬ g.HidesLeftRecursion) {m n : Nat} (hm : m < g.nts.size)
    (h : g.Before m n) : g.rank m < g.rank n := by
  classical
  apply Finset.card_lt_card
  refine ⟨fun k hk => ?_, fun hsub => ?_⟩
  · simp only [Finset.mem_filter] at hk ⊢
    exact ⟨hk.1, hk.2.trans h⟩
  · have hmem := hsub (Finset.mem_filter.2 ⟨Finset.mem_range.2 hm, h⟩)
    exact hidden ⟨m, (Finset.mem_filter.1 hmem).2⟩

theorem rank_le_size (g : Grammar) (n : Nat) : g.rank n ≤ g.nts.size := by
  classical
  calc g.rank n ≤ (Finset.range g.nts.size).card := Finset.card_filter_le _ _
    _ = g.nts.size := Finset.card_range _

/-- The greatest number of symbols in a production. -/
def longest (g : Grammar) : Nat := (Finset.range g.prods.size).sup fun p => (g.rhs p).length

theorem length_rhs_le (g : Grammar) (p : Nat) : (g.rhs p).length ≤ g.longest := by
  by_cases hp : p < g.prods.size
  · exact Finset.le_sup (f := fun p => (g.rhs p).length) (Finset.mem_range.2 hp)
  · rw [rhs, Array.getElem?_eq_none (Nat.le_of_not_lt hp)]
    exact Nat.zero_le _

end Grammar

namespace Tables

variable {g : Grammar} {t : Tables} {a : Nat} {γ δ : List Symbol} {c : Core} {i : Nat}

/-! ### Symbols that vanish at the end of what has been read -/

/-- The nonterminal of a production that was taken up can be reached. -/
theorem reachable_lhs (hg : g.WellFormed)
    (h : Canonical.Closure g.augment (Canonical.kernelAfter g.augment γ) c)
    (hp : c.prod < g.prods.size) : Canonical.Reachable g.augment (g.lhs c.prod) := by
  have hG := Grammar.isAugmented_augment hg
  refine (Canonical.closure_induction (P := fun γ c =>
    Canonical.Closure g.augment (Canonical.kernelAfter g.augment γ) c ∧
      (c.prod < g.prods.size → Canonical.Reachable g.augment (g.lhs c.prod))) ?_ ?_ ?_ h).2 hp
  · refine ⟨.kernel rfl, fun hlt => ?_⟩
    rw [Grammar.acceptProd_augment] at hlt
    exact absurd hlt (Nat.lt_irrefl _)
  · rintro γ c x ⟨hc, hreach⟩ hx haccepts
    rw [Canonical.kernelAfter_append_singleton]
    exact ⟨.kernel ⟨c, hc, hx, haccepts, rfl⟩, hreach⟩
  · rintro γ c n p ⟨hc, -⟩ hn hp
    refine ⟨.expand hc hn hp, fun hlt => ?_⟩
    rw [← Grammar.lhs_augment hlt, hG.lhs_of_mem_prodsOf n p hp]
    exact Canonical.reachable_of_closure hc n (Canonical.mem_rhs_of_next? hn)

/-- The bound for the symbols that were read before a production was taken up. -/
noncomputable def roomBefore (g : Grammar) (p : Nat) : Nat :=
  if p < g.prods.size then g.longest * (g.rank (g.lhs p) + 1) else 0

theorem longest_le_roomBefore {p : Nat} (hp : p < g.prods.size) : g.longest ≤ roomBefore g p := by
  rw [roomBefore, if_pos hp]
  exact Nat.le_mul_of_pos_right _ (Nat.succ_pos _)

theorem roomBefore_le_size (g : Grammar) (p : Nat) :
    roomBefore g p ≤ g.longest * (g.nts.size + 1) := by
  rw [roomBefore]
  split
  · exact Nat.mul_le_mul_left _ (Nat.succ_le_succ (g.rank_le_size _))
  · exact Nat.zero_le _

/-- A production that is taken up behind the dot of an item leaves room for what was read of the
item, if that vanishes. -/
theorem roomBefore_le (hg : g.WellFormed) (hidden : ¬ g.HidesLeftRecursion) {p : Nat}
    (hc : Canonical.Closure g.augment (Canonical.kernelAfter g.augment γ) c)
    (hn : c.next? g.augment = some (.nonterminal (g.lhs p))) (hp : p < g.prods.size)
    (hlt : c.prod < g.prods.size) (hread : g.Vanishes ((g.rhs c.prod).take c.dot)) :
    c.dot + roomBefore g c.prod ≤ roomBefore g p := by
  have hrest := Canonical.rest_of_next? hn
  rw [Core.rest, Grammar.rhs_augment hlt] at hrest
  -- the nonterminal of the item derives what was read of it, the new nonterminal and the rest
  have hder : g.Derives [.nonterminal (g.lhs c.prod)]
      ((g.rhs c.prod).take c.dot ++ .nonterminal (g.lhs p) ::
        Core.rest g.augment ⟨c.prod, c.dot + 1⟩) := by
    have := Grammar.derives_rhs hlt []
    rwa [List.append_nil, ← List.take_append_drop c.dot (g.rhs c.prod), hrest] at this
  rw [roomBefore, roomBefore, if_pos hlt, if_pos hp]
  rcases Nat.eq_zero_or_pos c.dot with hdot | hdot
  · rw [hdot, List.take_zero, List.nil_append] at hder
    rw [hdot, Nat.zero_add]
    exact Nat.mul_le_mul_left _ (Nat.succ_le_succ (Grammar.rank_le_of_derives hder))
  · have hdot_le : c.dot ≤ (g.rhs c.prod).length := by
      have := Canonical.dot_le_of_closure hc
      rwa [Grammar.rhs_augment hlt] at this
    have hne : (g.rhs c.prod).take c.dot ≠ [] := by
      rw [Ne, List.take_eq_nil_iff]
      rintro (hzero | hnil)
      · omega
      · rw [hnil, List.length_nil] at hdot_le
        omega
    have hrank := Grammar.rank_lt_of_before hidden (hg.lhs_lt _ hlt)
      ⟨reachable_lhs hg hc hlt, _, _, hne, Grammar.vanishes_iff_derives.1 hread, hder⟩
    calc c.dot + g.longest * (g.rank (g.lhs c.prod) + 1)
        ≤ g.longest + g.longest * (g.rank (g.lhs c.prod) + 1) :=
          Nat.add_le_add_right (hdot_le.trans (g.length_rhs_le _)) _
      _ = g.longest * (g.rank (g.lhs c.prod) + 2) := by rw [Nat.add_comm, ← Nat.mul_succ]
      _ ≤ g.longest * (g.rank (g.lhs p) + 1) := Nat.mul_le_mul_left _ (by omega)

/-- An item that calls for a nonterminal belongs to a production of the grammar, or nothing has been
read. -/
theorem lt_or_eq_nil (hg : g.WellFormed) {n : Nat}
    (hc : Canonical.Closure g.augment (Canonical.kernelAfter g.augment γ) c)
    (hn : c.next? g.augment = some (.nonterminal n)) : c.prod < g.prods.size ∨ γ = [] := by
  rcases Grammar.mem_rhs_augment (Canonical.mem_rhs_of_next? hn) with ⟨-, hlt⟩ | ⟨hprod, -⟩
  · exact Or.inl hlt
  · have hread := (Canonical.read_of_closure (Grammar.isAugmented_augment hg) hc).2
      (hprod.trans (Grammar.acceptProd_augment g).symm)
    rw [Core.next?, Core.rest, List.head?_drop, hprod, Grammar.rhs_augment_size] at hn
    rcases hdot : c.dot with _ | _ | k
    · rw [hdot, List.take_zero] at hread
      exact Or.inr hread
    · rw [hdot] at hn
      exact absurd hn (by simp)
    · rw [hdot] at hn
      exact absurd hn (by simp)

/-- What vanishes at the end of what has been read is no longer than what has been read of an item
and the room before its production. -/
theorem length_le_of_vanishes (hg : g.WellFormed) (hidden : ¬ g.HidesLeftRecursion)
    (h : Canonical.Closure g.augment (Canonical.kernelAfter g.augment γ) c) {ν : List Symbol}
    (hγ : ν <:+ γ) (hν : g.Vanishes ν) : ν.length ≤ c.dot + roomBefore g c.prod := by
  have hG := Grammar.isAugmented_augment hg
  refine (Canonical.closure_induction (P := fun γ c =>
    Canonical.Closure g.augment (Canonical.kernelAfter g.augment γ) c ∧
      ∀ ν, ν <:+ γ → g.Vanishes ν → ν.length ≤ c.dot + roomBefore g c.prod) ?_ ?_ ?_ h).2 ν hγ hν
  · refine ⟨.kernel rfl, ?_⟩
    intro ν hsuffix _
    rw [List.suffix_nil.1 hsuffix]
    exact Nat.zero_le _
  · rintro γ c x ⟨hc, hroom⟩ hx haccepts
    refine ⟨?_, ?_⟩
    · rw [Canonical.kernelAfter_append_singleton]
      exact .kernel ⟨c, hc, hx, haccepts, rfl⟩
    · intro ν hsuffix hν
      rcases List.eq_nil_or_concat ν with rfl | ⟨ν, y, rfl⟩
      · exact Nat.zero_le _
      · rw [List.concat_eq_append] at hsuffix hν ⊢
        obtain ⟨δ, heq⟩ := hsuffix
        rw [← List.append_assoc] at heq
        have := hroom ν ⟨δ, (List.append_inj' heq rfl).1⟩ (Grammar.vanishes_append.1 hν).1
        rw [List.length_append, List.length_singleton, Nat.add_right_comm]
        exact Nat.succ_le_succ this
  · rintro γ c n p ⟨hc, hroom⟩ hn hp
    refine ⟨.expand hc hn hp, ?_⟩
    intro ν hsuffix hν
    rw [Nat.zero_add]
    rcases lt_or_eq_nil hg hc hn with hlt | rfl
    · obtain ⟨hplt, rfl⟩ : p < g.prods.size ∧ g.lhs p = n := by
        rcases Grammar.mem_prodsOf_augment hp with ⟨-, hmem⟩ | ⟨rfl, rfl⟩
        · exact ⟨hg.lt_of_mem_prodsOf n p hmem, hg.lhs_of_mem_prodsOf n p hmem⟩
        · have hfresh := Canonical.mem_rhs_of_next? hn
          rw [Grammar.rhs_augment hlt] at hfresh
          exact absurd (hg.nonterminal_lt _ _ hfresh) (Nat.lt_irrefl _)
      have hread := (Canonical.read_of_closure hG hc).1
      rw [Grammar.rhs_augment hlt] at hread
      have hlength : ((g.rhs c.prod).take c.dot).length ≤ c.dot := List.length_take_le _ _
      rcases Nat.le_total ν.length ((g.rhs c.prod).take c.dot).length with hle | hle
      · calc ν.length ≤ (g.rhs c.prod).length := hle.trans (List.length_take_le' _ _)
          _ ≤ g.longest := g.length_rhs_le _
          _ ≤ roomBefore g p := longest_le_roomBefore hplt
      · -- all that was read of the item vanishes
        obtain ⟨ν', rfl⟩ := List.suffix_of_suffix_length_le hread hsuffix hle
        exact (hroom _ hsuffix hν).trans
          (roomBefore_le hg hidden hc hn hplt hlt (Grammar.vanishes_append.1 hν).2)
    · rw [List.suffix_nil.1 hsuffix]
      exact Nat.zero_le _

/-- There is a bound on how many symbols that vanish can be read one after the other. -/
theorem exists_room (hg : g.WellFormed) (hidden : ¬ g.HidesLeftRecursion) : ∃ room,
    ∀ {δ ν : List Symbol} {i : Nat}, walk (statesOf g) 0 (δ ++ ν) = some i → g.Vanishes ν →
      ν.length ≤ room := by
  refine ⟨g.augment.longest + g.longest * (g.nts.size + 1), ?_⟩
  intro δ ν i hwalk hν
  obtain ⟨c, hc⟩ := kernelAfter_nonempty hg hwalk
  have hclosure : Canonical.Closure g.augment (Canonical.kernelAfter g.augment (δ ++ ν)) c :=
    .kernel hc
  calc ν.length ≤ c.dot + roomBefore g c.prod :=
        length_le_of_vanishes hg hidden hclosure (List.suffix_append δ ν) hν
    _ ≤ g.augment.longest + g.longest * (g.nts.size + 1) := by
        refine Nat.add_le_add ?_ (roomBefore_le_size g c.prod)
        exact (Canonical.dot_le_of_closure hclosure).trans (g.augment.length_rhs_le _)

/-! ### The end of reductions -/

/-- What alone becomes a nonterminal is derived by it alone. -/
theorem transGen_rewrites_of_climbs {x y : Symbol} (h : TransGen (Climbs g a) x y) :
    TransGen g.Rewrites [y] [x] := by
  have hstep : ∀ {x y : Symbol}, Climbs g a x y → TransGen g.Rewrites [y] [x] := by
    rintro x y ⟨p, ρ, δ, hp, rfl, hrhs, hρ, -⟩
    have hvanish := Grammar.vanishes_iff_derives.1 (Grammar.vanishes_augment.1 hρ)
    have hfirst : g.Rewrites [.nonterminal (g.lhs p)] (x :: ρ) := by
      have := Grammar.Rewrites.intro (g := g) [] [] hp
      rwa [List.append_nil, hrhs] at this
    exact TransGen.head' hfirst (hvanish.append_left [x])
  induction h with
  | single h => exact hstep h
  | tail _ h ih => exact (hstep h).trans ih

/-- In a grammar without cycles no symbol alone becomes itself. -/
theorem not_transGen_climbs_of_not_isCyclic (hg : g.WellFormed) (hcyclic : ¬ g.IsCyclic)
    (x : Symbol) : ¬ TransGen (Climbs g a) x x := by
  intro h
  obtain ⟨y, -, p, ρ, δ, hp, rfl, -, -, hsees⟩ := TransGen.tail'_iff.1 h
  exact hcyclic ⟨g.lhs p, reachable_lhs hg hsees.closure hp, transGen_rewrites_of_climbs h⟩

/-- Reductions that leave in place what has been read put symbols that vanish behind it, and for these
there is only so much room. -/
theorem Made.halts_of_room (h : Made g t) (hg : g.WellFormed)
    (hacyclic : ∀ x, ¬ TransGen (Climbs g a) x x) (room : Nat)
    (hwalk : walk (statesOf g) 0 δ = some i)
    (hroom : ∀ {ν : List Symbol} {j : Nat}, walk (statesOf g) 0 (δ ++ ν) = some j → g.Vanishes ν →
      ν.length ≤ room) (hbelow : HaltsBelow g t a δ) : Halts g t a δ := by
  induction room using Nat.strong_induction_on generalizing δ i with
  | _ room ih =>
    refine Acc.intro _ ?_
    rintro γ' ⟨δ', p, j, heq, rfl, hj, haction⟩
    by_cases hlt : δ'.length < δ.length
    · refine hbelow δ' p j [] .nil ?_ hlt ?_ haction
      · rw [List.append_nil, heq]
      · rw [List.append_nil, hj]
    · -- nothing is taken off, and a symbol that vanishes is put behind
      obtain ⟨hrhs, rfl⟩ : g.rhs p = [] ∧ δ' = δ := by
        have hlength := congrArg List.length heq
        rw [List.length_append] at hlength
        have hnil : g.rhs p = [] := List.length_eq_zero_iff.1 (by omega)
        rw [hnil, List.append_nil] at heq
        exact ⟨hnil, heq.symm⟩
      rw [heq] at hj
      obtain ⟨hp, hne⟩ := h.nonempty_of_reduce hg hj haction
      obtain ⟨k, hk⟩ := (finished_statesOf hg).exists_walk (Grammar.isAugmented_augment hg) hne
      have hvanish : g.Vanishes [.nonterminal (g.lhs p)] := .cons hp (hrhs ▸ .nil) .nil
      have hpos : 1 ≤ room := hroom hk hvanish
      refine h.halts_append hg (V := fun x => g.Vanishes [x]) ?_ ?_ ?_ (acc_climbs hg hacyclic _)
        hvanish hk
      · rintro x y hx ⟨q, ρ, -, hq, rfl, hqrhs, hρ, -⟩
        refine .cons hq ?_ .nil
        rw [hqrhs, Grammar.vanishes_cons]
        exact ⟨hx, Grammar.vanishes_augment.1 hρ⟩
      · intro x hx δ p i η hη heq hlt hi haction
        rw [List.append_assoc] at heq hi
        refine hbelow δ p i ([x] ++ η) ?_ heq hlt hi haction
        exact Grammar.vanishes_append.2 ⟨Grammar.vanishes_augment.2 hx, hη⟩
      · intro x i hx hwalk' hbelow'
        refine ih (room - 1) (by omega) hwalk' ?_ hbelow'
        intro ν j hj hν
        rw [List.append_assoc] at hj
        have := hroom hj (Grammar.vanishes_append.2 ⟨hx, hν⟩)
        rw [List.length_append, List.length_singleton] at this
        omega

/-- Of a grammar that is recursive in neither way, the reductions come to an end, however its conflicts
were settled. -/
theorem Made.halts_of_not_recursive (h : Made g t) (hg : g.WellFormed) (hcyclic : ¬ g.IsCyclic)
    (hidden : ¬ g.HidesLeftRecursion) (hwalk : walk (statesOf g) 0 γ = some i) :
    Halts g t a γ := by
  have hacyclic := not_transGen_climbs_of_not_isCyclic (a := a) hg hcyclic
  obtain ⟨room, hroom⟩ := exists_room hg hidden
  exact h.halts hg hacyclic (fun hwalk => h.halts_of_room hg hacyclic room hwalk hroom) hwalk

end Tables

end ShiftReduce
