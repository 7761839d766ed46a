import Mathlib.Data.List.Induction
import Mathlib.Data.List.Sort
import ShiftReduce.Proofs.Grammar.Declared

/-!
# Drafts as sequences of calls

A draft is made by a sequence of calls (`Draft.ofCalls`), each of which declares something or gives a
production a group. The symbols, productions and groups that a call mentions are numbers, and nothing keeps
a production from naming a nonterminal that is declared only later. Such a production is kept, but it is
on the list of no nonterminal: the lists hold the productions that were declared in time
(`Draft.InTime`), in ascending order.

`Draft.build_listsExactly_iff` says what this means for the grammar. Its lists are exact if and only if all
its productions were declared in time, and augmenting changes nothing about it. `Draft.early_production` is
a draft with a production that came too early.
-/

namespace ShiftReduce

namespace Grammar

/-- The list of every nonterminal holds exactly its productions, in ascending order. -/
def ListsExactly (g : Grammar) : Prop :=
  ∀ n < g.nts.size, g.prodsOf n = (List.range g.prods.size).filter fun p => g.lhs p = n

instance (g : Grammar) : Decidable g.ListsExactly :=
  inferInstanceAs (Decidable (∀ n < g.nts.size, _ = _))

variable {g : Grammar}

/-- A list in ascending order is given by its members. -/
theorem prodsOf_eq_filter_iff {n : Nat} (h : (g.prodsOf n).Pairwise (· < ·)) :
    g.prodsOf n = (List.range g.prods.size).filter (fun p => g.lhs p = n) ↔
      ∀ p, p ∈ g.prodsOf n ↔ p < g.prods.size ∧ g.lhs p = n := by
  constructor
  · intro heq p
    rw [heq, List.mem_filter, List.mem_range, decide_eq_true_eq]
  · intro hmem
    refine h.eq_of_mem_iff (List.pairwise_lt_range.filter _) fun p => ?_
    rw [hmem, List.mem_filter, List.mem_range, decide_eq_true_eq]

/-- Augmenting adds a nonterminal and its one production, and keeps all lists. -/
theorem listsExactly_augment_iff (hg : g.WellFormed) : g.augment.ListsExactly ↔ g.ListsExactly := by
  have hold : ∀ n < g.nts.size, (List.range g.augment.prods.size).filter (fun p => g.augment.lhs p = n) =
      (List.range g.prods.size).filter fun p => g.lhs p = n := by
    intro n hn
    rw [size_prods_augment, List.range_succ, List.filter_append, List.filter_singleton,
      lhs_augment_size, decide_eq_false (Nat.ne_of_gt hn), Bool.cond_false, List.append_nil]
    exact List.filter_congr fun p hp => by rw [lhs_augment (List.mem_range.1 hp)]
  have hnew : (List.range g.augment.prods.size).filter (fun p => g.augment.lhs p = g.nts.size) =
      [g.prods.size] := by
    have hnone : (List.range g.prods.size).filter (fun p => g.augment.lhs p = g.nts.size) = [] := by
      refine List.filter_eq_nil_iff.2 fun p hp => ?_
      rw [decide_eq_true_eq, lhs_augment (List.mem_range.1 hp)]
      exact Nat.ne_of_lt (hg.lhs_lt p (List.mem_range.1 hp))
    rw [size_prods_augment, List.range_succ, List.filter_append, hnone, List.filter_singleton,
      lhs_augment_size, decide_eq_true rfl, Bool.cond_true, List.nil_append]
  constructor
  · intro h n hn
    rw [← prodsOf_augment hn, ← hold n hn]
    exact h n (by rw [size_nts_augment]; exact Nat.lt_succ_of_lt hn)
  · intro h n hn
    rw [size_nts_augment] at hn
    rcases Nat.lt_succ_iff_lt_or_eq.1 hn with hlt | rfl
    · rw [prodsOf_augment hlt, hold n hlt]
      exact h n hlt
    · rw [prodsOf_augment_size, hnew]

end Grammar

namespace Draft

/-- A call that declares something or gives a production a group. -/
inductive Call where
  | terminal (name : String) (pattern : Regex) (skip : Bool)
  | literal (name : String) (pattern : Regex)
  | errorTerminal
  | nonterminal (name : String)
  | production (nt : Nat) (symbols : List Symbol)
  | setPrec (prod group : Nat)
  | precGroup (assoc : Assoc) (terminals : List Nat)

/-- The draft after one more call. -/
def perform (d : Draft) : Call → Draft
  | .terminal name pattern skip => (d.terminal name pattern skip).1
  | .literal name pattern => (d.literal name pattern).1
  | .errorTerminal => d.errorTerminal.1
  | .nonterminal name => (d.nonterminal name).1
  | .production nt symbols => (d.production nt symbols).1
  | .setPrec prod group => d.setPrec prod group
  | .precGroup assoc terminals => (d.precGroup assoc terminals).1

/-- The draft that a sequence of calls makes. -/
def ofCalls (calls : List Call) : Draft := calls.foldl perform empty

theorem ofCalls_append_singleton (calls : List Call) (c : Call) :
    ofCalls (calls ++ [c]) = (ofCalls calls).perform c := by
  rw [ofCalls, List.foldl_append, List.foldl_cons, List.foldl_nil, ofCalls]

theorem Declared.perform {d : Draft} (h : d.Declared) : ∀ c : Call, (d.perform c).Declared
  | .terminal name pattern skip => h.terminal name pattern skip
  | .literal name pattern => h.literal name pattern
  | .errorTerminal => h.errorTerminal
  | .nonterminal name => h.nonterminal name
  | .production nt symbols => h.production nt symbols
  | .setPrec prod group => h.setPrec prod group
  | .precGroup assoc terminals => h.precGroup assoc terminals

theorem declared_ofCalls (calls : List Call) : (ofCalls calls).Declared := by
  induction calls using List.reverseRecOn with
  | nil => exact .empty
  | append_singleton calls c ih =>
    rw [ofCalls_append_singleton]
    exact ih.perform c

/-! ### Lists of productions -/

/-- The production with the number `p` was declared at a time when its nonterminal had been declared. -/
def InTime (calls : List Call) (p : Nat) : Prop :=
  ∃ before nt symbols after, calls = before ++ .production nt symbols :: after ∧
    (ofCalls before).prods.size = p ∧ nt < (ofCalls before).nts.size

theorem not_inTime_nil (p : Nat) : ¬ InTime [] p := by
  rintro ⟨before, nt, symbols, after, heq, -⟩
  exact List.append_ne_nil_of_right_ne_nil before (List.cons_ne_nil _ after) heq.symm

/-- A production was declared in time before the last call or by it. -/
theorem inTime_append_singleton {calls : List Call} {c : Call} {p : Nat} :
    InTime (calls ++ [c]) p ↔ InTime calls p ∨ ∃ nt symbols, c = .production nt symbols ∧
      (ofCalls calls).prods.size = p ∧ nt < (ofCalls calls).nts.size := by
  constructor
  · rintro ⟨before, nt, symbols, after, heq, hp, hnt⟩
    rcases List.eq_nil_or_concat after with rfl | ⟨after, c', rfl⟩
    · obtain ⟨rfl, hc⟩ := List.append_inj' heq rfl
      exact Or.inr ⟨nt, symbols, List.singleton_inj.1 hc, hp, hnt⟩
    · rw [List.concat_eq_append, ← List.cons_append, ← List.append_assoc] at heq
      exact Or.inl ⟨before, nt, symbols, after, (List.append_inj' heq rfl).1, hp, hnt⟩
  · rintro (⟨before, nt, symbols, after, rfl, hp, hnt⟩ | ⟨nt, symbols, rfl, hp, hnt⟩)
    · exact ⟨before, nt, symbols, after ++ [c], by rw [List.append_assoc, List.cons_append], hp, hnt⟩
    · exact ⟨calls, nt, symbols, [], rfl, hp, hnt⟩

/-- What the calls have put on the lists: the productions declared in time, in ascending order. -/
structure Listed (calls : List Call) (d : Draft) : Prop where
  declared : ∀ {p : Nat}, InTime calls p → ∃ n < d.nts.size, d.prods[p]?.map Production.nt = some n
  ascending : ∀ {n : Nat} {nt : Nonterminal}, d.nts[n]? = some nt → nt.prods.Pairwise (· < ·)
  mem_iff : ∀ {n : Nat} {nt : Nonterminal}, d.nts[n]? = some nt → ∀ p, p ∈ nt.prods ↔
    InTime calls p ∧ d.prods[p]?.map Production.nt = some n

variable {d d' : Draft} {calls : List Call}

/-- A call that declares neither a nonterminal nor a production changes no list. -/
theorem Listed.frame {c : Call} (h : Listed calls d) (hnts : d'.nts = d.nts)
    (hprods : ∀ p : Nat, d'.prods[p]?.map Production.nt = d.prods[p]?.map Production.nt)
    (hc : ∀ nt symbols, c ≠ .production nt symbols) : Listed (calls ++ [c]) d' := by
  have hiff : ∀ p, InTime (calls ++ [c]) p ↔ InTime calls p := by
    intro p
    rw [inTime_append_singleton, or_iff_left]
    rintro ⟨nt, symbols, heq, -⟩
    exact hc nt symbols heq
  refine
    { declared := fun {p} hp => ?_
      ascending := fun hn => h.ascending (hnts ▸ hn)
      mem_iff := fun {n nt} hn p => ?_ }
  · rw [hnts, hprods]
    exact h.declared ((hiff p).1 hp)
  · rw [hiff, hprods]
    exact h.mem_iff (hnts ▸ hn) p

/-- The list of a new nonterminal is empty: no production that was declared in time is its own. -/
theorem Listed.nonterminal (h : Listed calls d) (name : String) :
    Listed (calls ++ [.nonterminal name]) (d.nonterminal name).1 := by
  have hiff : ∀ p, InTime (calls ++ [.nonterminal name]) p ↔ InTime calls p := by
    intro p
    rw [inTime_append_singleton, or_iff_left]
    rintro ⟨nt, symbols, heq, -⟩
    exact Call.noConfusion heq
  have hnts : ∀ {n : Nat} {nt : Nonterminal}, (d.nonterminal name).1.nts[n]? = some nt →
      d.nts[n]? = some nt ∨ n = d.nts.size ∧ nt.prods = [] := by
    intro n nt hn
    rw [Draft.nonterminal, Array.getElem?_push] at hn
    split at hn
    · next heq => exact Or.inr ⟨heq, by rw [← Option.some.inj hn]⟩
    · exact Or.inl hn
  refine { declared := fun {p} hp => ?_, ascending := fun hn => ?_, mem_iff := fun {n nt} hn p => ?_ }
  · obtain ⟨n, hn, heq⟩ := h.declared ((hiff p).1 hp)
    refine ⟨n, ?_, heq⟩
    rw [Draft.nonterminal, Array.size_push]
    exact Nat.lt_succ_of_lt hn
  · rcases hnts hn with hold | ⟨-, hnil⟩
    · exact h.ascending hold
    · rw [hnil]
      exact List.Pairwise.nil
  · rw [hiff]
    rcases hnts hn with hold | ⟨rfl, hnil⟩
    · exact h.mem_iff hold p
    · rw [hnil]
      refine iff_of_false List.not_mem_nil ?_
      rintro ⟨hp, heq⟩
      obtain ⟨n, hlt, hn'⟩ := h.declared hp
      obtain rfl : n = d.nts.size := Option.some.inj (hn'.symm.trans heq)
      exact Nat.lt_irrefl _ hlt

/-- A new production is put last on the list of its nonterminal. -/
theorem exists_of_getElem?_production {nt n : Nat} {symbols : List Symbol} {m : Nonterminal}
    (h : (d.production nt symbols).1.nts[n]? = some m) : ∃ m', d.nts[n]? = some m' ∧
      m.prods = m'.prods ++ if nt = n then [d.prods.size] else [] := by
  rw [Draft.production, Array.getElem?_modify] at h
  split at h
  · next heq =>
    obtain ⟨m', hm', rfl⟩ := Option.map_eq_some_iff.1 h
    exact ⟨m', hm', by rw [if_pos heq]⟩
  · next hne => exact ⟨m, h, by rw [if_neg hne, List.append_nil]⟩

theorem map_nt_production (d : Draft) (nt : Nat) (symbols : List Symbol) (p : Nat) :
    (d.production nt symbols).1.prods[p]?.map Production.nt =
      if p = d.prods.size then some nt else d.prods[p]?.map Production.nt := by
  rw [Draft.production, Array.getElem?_push]
  split <;> rfl

/-- The number of a production that was declared in time has been given away. -/
theorem Listed.lt_size (h : Listed calls d) {p : Nat} (hp : InTime calls p) : p < d.prods.size := by
  obtain ⟨n, -, heq⟩ := h.declared hp
  obtain ⟨prod, hprod, -⟩ := Option.map_eq_some_iff.1 heq
  exact (Array.getElem?_eq_some_iff.1 hprod).1

/-- A new production was declared in time if it is put on a list. -/
theorem Listed.production (h : Listed calls (ofCalls calls)) (nt : Nat) (symbols : List Symbol) :
    Listed (calls ++ [.production nt symbols]) ((ofCalls calls).production nt symbols).1 := by
  have hiff : ∀ p, InTime (calls ++ [.production nt symbols]) p ↔
      InTime calls p ∨ p = (ofCalls calls).prods.size ∧ nt < (ofCalls calls).nts.size := by
    intro p
    rw [inTime_append_singleton]
    refine or_congr_right ⟨?_, ?_⟩
    · rintro ⟨nt', symbols', heq, hp, hnt⟩
      obtain ⟨rfl, rfl⟩ := Call.production.inj heq
      exact ⟨hp.symm, hnt⟩
    · rintro ⟨rfl, hnt⟩
      exact ⟨nt, symbols, rfl, rfl, hnt⟩
  generalize ofCalls calls = d at h hiff
  have hne : ∀ {p}, InTime calls p → p ≠ d.prods.size := fun hp => Nat.ne_of_lt (h.lt_size hp)
  refine
    { declared := fun {p} hp => ?_
      ascending := fun {n m} hn => ?_
      mem_iff := fun {n m} hn p => ?_ }
  · rw [map_nt_production, Draft.production, Array.size_modify]
    rcases (hiff p).1 hp with hold | ⟨rfl, hnt⟩
    · rw [if_neg (hne hold)]
      exact h.declared hold
    · exact ⟨nt, hnt, if_pos rfl⟩
  · obtain ⟨m', hm', hlist⟩ := exists_of_getElem?_production hn
    rw [hlist, List.pairwise_append]
    refine ⟨h.ascending hm', by split <;> simp, fun p hp q hq => ?_⟩
    have hlt := h.lt_size ((h.mem_iff hm' p).1 hp).1
    split at hq
    · rwa [List.mem_singleton.1 hq]
    · exact absurd hq List.not_mem_nil
  · obtain ⟨m', hm', hlist⟩ := exists_of_getElem?_production hn
    have hlt : n < d.nts.size := (Array.getElem?_eq_some_iff.1 hm').1
    have hlast : (p ∈ if nt = n then [d.prods.size] else []) ↔ nt = n ∧ p = d.prods.size := by
      split
      · next heq => simp [heq]
      · next hother => simp [hother]
    rw [hlist, List.mem_append, hlast, h.mem_iff hm', hiff, map_nt_production]
    by_cases hp : p = d.prods.size
    · have hnot : ¬ InTime calls p := fun hold => hne hold hp
      simp only [hnot, if_pos hp, false_and, false_or, Option.some.injEq]
      exact ⟨fun hboth => ⟨⟨hp, hboth.1 ▸ hlt⟩, hboth.1⟩, fun hboth => ⟨hboth.2, hp⟩⟩
    · simp only [hp, and_false, false_and, or_false, if_false]

/-- The lists hold the productions declared in time. -/
theorem listed_ofCalls (calls : List Call) : Listed calls (ofCalls calls) := by
  induction calls using List.reverseRecOn with
  | nil =>
    exact
      { declared := fun hp => absurd hp (not_inTime_nil _)
        ascending := fun hn => by simp [ofCalls, empty] at hn
        mem_iff := fun hn => by simp [ofCalls, empty] at hn }
  | append_singleton calls c ih =>
    rw [ofCalls_append_singleton]
    cases c with
    | terminal name pattern skip => exact ih.frame rfl (fun _ => rfl) (by simp)
    | literal name pattern => exact ih.frame rfl (fun _ => rfl) (by simp)
    | errorTerminal =>
      refine ih.frame ?_ (fun p => ?_) (by simp)
      · rw [perform, errorTerminal]
        split <;> rfl
      · rw [perform, (size_errorTerminal _).1]
    | nonterminal name => exact ih.nonterminal name
    | production nt symbols => exact ih.production nt symbols
    | setPrec prod group =>
      refine ih.frame rfl (fun p => ?_) (by simp)
      rw [perform, setPrec, Array.getElem?_modify]
      split
      · rw [Option.map_map]
        rfl
      · rfl
    | precGroup assoc terminals => exact ih.frame rfl (fun _ => rfl) (by simp)

variable {start : Nat} {g : Grammar}

/-- The lists of a grammar are those of the draft. -/
theorem mem_prodsOf_iff_inTime (hg : (ofCalls calls).build start = .ok g) (n : Nat) :
    (g.prodsOf n).Pairwise (· < ·) ∧
      ∀ p, p ∈ g.prodsOf n ↔ (p < g.prods.size ∧ g.lhs p = n) ∧ InTime calls p := by
  have hwf := (declared_ofCalls calls).consistent.wellFormed hg
  obtain ⟨d', hd', rfl⟩ := exists_settles_of_build hg
  have hlisted := listed_ofCalls calls
  have hnts : (d'.finish start).nts = (ofCalls calls).nts := hd'.nts
  by_cases hn : n < (ofCalls calls).nts.size
  · have hget := Array.getElem?_eq_getElem hn
    have hlist : (d'.finish start).prodsOf n = (ofCalls calls).nts[n].prods := by
      rw [Grammar.prodsOf, hnts, hget]
      rfl
    rw [hlist]
    refine ⟨hlisted.ascending hget, fun p => ?_⟩
    rw [hlisted.mem_iff hget, and_comm]
    refine and_congr_left fun _ => ?_
    constructor
    · intro heq
      obtain ⟨prod, hprod, rfl⟩ := Option.map_eq_some_iff.1 heq
      have hlt := Nat.lt_of_lt_of_eq (Array.getElem?_eq_some_iff.1 hprod).1 hd'.size_prods.symm
      obtain ⟨prod', hprod', hlhs, -⟩ := hd'.getElem?_prods hlt
      obtain rfl := Option.some.inj (hprod.symm.trans hprod')
      exact ⟨hlt, hlhs⟩
    · rintro ⟨hlt, heq⟩
      obtain ⟨prod, hprod, hlhs, -⟩ := hd'.getElem?_prods hlt
      rw [hprod, Option.map_some, ← hlhs, heq]
  · have hn' : (d'.finish start).nts.size ≤ n := hnts ▸ Nat.le_of_not_lt hn
    rw [Grammar.prodsOf_eq_nil hn']
    refine ⟨List.Pairwise.nil, fun p => iff_of_false List.not_mem_nil ?_⟩
    rintro ⟨⟨hlt, rfl⟩, -⟩
    exact Nat.not_le_of_lt (hwf.lhs_lt p hlt) hn'

/-- The lists of the nonterminals hold the productions that were declared in time, in ascending order. They
are exact if and only if all productions were, and they are after augmenting if and only if they were
before. -/
theorem build_listsExactly_iff (hg : (ofCalls calls).build start = .ok g) :
    (∀ n, (g.prodsOf n).Pairwise (· < ·) ∧
      ∀ p, p ∈ g.prodsOf n ↔ (p < g.prods.size ∧ g.lhs p = n) ∧ InTime calls p) ∧
    (g.ListsExactly ↔ ∀ p < g.prods.size, InTime calls p) ∧
    (g.augment.ListsExactly ↔ g.ListsExactly) := by
  have hwf := (declared_ofCalls calls).consistent.wellFormed hg
  have hlists := mem_prodsOf_iff_inTime hg
  refine ⟨hlists, ⟨fun h p hp => ?_, fun h n _ => ?_⟩, Grammar.listsExactly_augment_iff hwf⟩
  · obtain ⟨hascending, hmem⟩ := hlists (g.lhs p)
    have hown := (Grammar.prodsOf_eq_filter_iff hascending).1 (h _ (hwf.lhs_lt p hp))
    exact ((hmem p).1 ((hown p).2 ⟨hp, rfl⟩)).2
  · obtain ⟨hascending, hmem⟩ := hlists n
    refine (Grammar.prodsOf_eq_filter_iff hascending).2 fun p => (hmem p).trans ?_
    exact and_iff_left_of_imp fun hp => h p hp.1

/-- Declarations of `S = T | T T` and `T = x |`, in which nonterminals and productions alternate. The first
production mentions `T` before it is declared. -/
def alternating : List Call :=
  [.terminal "x" (.char 'x') false, .nonterminal "S", .production 0 [.nonterminal 1], .nonterminal "T",
    .production 1 [.terminal 0], .production 0 [.nonterminal 1, .nonterminal 1], .production 1 []]

theorem build_listsExactly_alternating : ∃ g, (ofCalls alternating).build 0 = .ok g ∧
    g.prodsOf 0 = [0, 2] ∧ g.prodsOf 1 = [1, 3] ∧ (∀ p < 4, InTime alternating p) ∧
    g.augment.ListsExactly := by
  obtain ⟨g, hg, hsize, hlists, hexact⟩ := exists_ok (x := (ofCalls alternating).build 0)
    (P := fun g => g.prods.size = 4 ∧ (g.prodsOf 0 = [0, 2] ∧ g.prodsOf 1 = [1, 3]) ∧ g.ListsExactly)
    (by decide +kernel)
  obtain ⟨-, htimely, haugment⟩ := build_listsExactly_iff hg
  exact ⟨g, hg, hlists.1, hlists.2, hsize ▸ htimely.1 hexact, haugment.2 hexact⟩

/-- A production of `T` that is declared before `T` is in the grammar, and nothing refuses it, but it is not
on the list of `T`. -/
theorem early_production : ∃ g, (ofCalls [.terminal "x" (.char 'x') false, .terminal "y" (.char 'y') false,
      .nonterminal "S", .production 0 [.nonterminal 1], .production 1 [.terminal 0], .nonterminal "T",
      .production 1 [.terminal 1]]).build 0 = .ok g ∧
    g.prods[1]? = some ⟨1, [.terminal 0], none⟩ ∧ g.prodsOf 1 = [2] ∧ ¬ g.ListsExactly :=
  exists_ok (by decide +kernel)

end Draft

end ShiftReduce
