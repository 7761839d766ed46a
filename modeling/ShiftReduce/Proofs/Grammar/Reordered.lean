import Mathlib.Data.List.Induction
import Mathlib.Logic.Equiv.Basic
import ShiftReduce.Lalr.Action
import ShiftReduce.Proofs.Grammar.Declared
import ShiftReduce.Proofs.Grammar.Derivation

/-!
# Productions in another order

`Grammar.Reordered π g g'` says that the grammars differ only in the order of their productions: what is
production `p` in `g` is production `π p` in `g'`, with the same symbols and the same group, and on the
list of the same nonterminal. Which symbols vanish and which terminals they begin with does not depend
on the order.

Drafts with the same symbols and groups whose productions are declared in another order make such
grammars (`Draft.exists_reordered`).
-/

namespace ShiftReduce

namespace Grammar

variable {g g' : Grammar} {π : Equiv.Perm Nat} {p q t : Nat} {xs : List Symbol}

/-- The productions of `g` stand in another order in `g'`, where `p` has the number `π p`. Everything
else is the same. -/
structure Reordered (π : Equiv.Perm Nat) (g g' : Grammar) : Prop where
  terminals : g'.terminals = g.terminals
  names : g'.nts.map Nonterminal.name = g.nts.map Nonterminal.name
  precs : g'.precs = g.precs
  start : g'.start = g.start
  eof : g'.eof = g.eof
  error : g'.error = g.error
  size : g'.prods.size = g.prods.size
  prods : ∀ p, g'.prods[π p]? = g.prods[p]?
  listed : ∀ n p, π p ∈ g'.prodsOf n ↔ p ∈ g.prodsOf n
  fixed : ∀ p, g.prods.size ≤ p → π p = p

namespace Reordered

theorem lt_iff (h : Reordered π g g') : π p < g'.prods.size ↔ p < g.prods.size := by
  rw [← Nat.not_le, ← Nat.not_le, ← Array.getElem?_eq_none_iff, ← Array.getElem?_eq_none_iff, h.prods]

theorem symm (h : Reordered π g g') : Reordered π.symm g' g where
  terminals := h.terminals.symm
  names := h.names.symm
  precs := h.precs.symm
  start := h.start.symm
  eof := h.eof.symm
  error := h.error.symm
  size := h.size.symm
  prods p := by rw [← h.prods, Equiv.apply_symm_apply]
  listed n p := by rw [← h.listed, Equiv.apply_symm_apply]
  fixed p hp := by
    rw [Equiv.symm_apply_eq, h.fixed p (h.size ▸ hp)]

theorem size_nts (h : Reordered π g g') : g'.nts.size = g.nts.size := by
  have := congrArg Array.size h.names
  rwa [Array.size_map, Array.size_map] at this

theorem lhs (h : Reordered π g g') (p : Nat) : g'.lhs (π p) = g.lhs p := by
  rw [Grammar.lhs, h.prods, Grammar.lhs]

theorem rhs (h : Reordered π g g') (p : Nat) : g'.rhs (π p) = g.rhs p := by
  rw [Grammar.rhs, h.prods, Grammar.rhs]

theorem prodPrec (h : Reordered π g g') (p : Nat) : g'.prodPrec (π p) = g.prodPrec p := by
  rw [Grammar.prodPrec, h.prods, Grammar.prodPrec]
  congr 1
  funext i
  rw [group, group, h.precs]

theorem terminalPrec (h : Reordered π g g') (t : Nat) : g'.terminalPrec t = g.terminalPrec t := by
  rw [Grammar.terminalPrec, h.terminals, Grammar.terminalPrec]
  congr 1
  funext i
  rw [group, group, h.precs]

theorem preference (h : Reordered π g g') (p t : Nat) :
    ShiftReduce.preference g' (π p) t = ShiftReduce.preference g p t := by
  rw [ShiftReduce.preference, h.prodPrec, h.terminalPrec, ShiftReduce.preference]

/-- Which symbols vanish does not depend on the order. -/
theorem vanishes (h : Reordered π g g') (hxs : g.Vanishes xs) : g'.Vanishes xs := by
  induction hxs with
  | nil => exact .nil
  | @cons p rest hp _ _ ihrhs ihrest =>
    rw [← h.rhs] at ihrhs
    rw [← h.lhs]
    exact .cons (h.lt_iff.2 hp) ihrhs ihrest

/-- Nor does it with which terminals symbols begin. -/
theorem begins (h : Reordered π g g') (hxs : g.Begins t xs) : g'.Begins t xs := by
  induction hxs with
  | here rest => exact .here rest
  | @inside p rest hp _ ih =>
    rw [← h.rhs] at ih
    rw [← h.lhs]
    exact .inside rest (h.lt_iff.2 hp) ih
  | behind hn _ ih => exact .behind (h.vanishes hn) ih

/-! ### Augmented grammars -/

/-- The accepting production is the last one in both. -/
theorem acceptProd_augment (h : Reordered π g g') :
    π g.augment.acceptProd = g'.augment.acceptProd := by
  rw [Grammar.acceptProd_augment, Grammar.acceptProd_augment, h.size]
  exact h.fixed _ (Nat.le_refl _)

theorem augment (h : Reordered π g g') : Reordered π g.augment g'.augment where
  terminals := h.terminals
  names := by
    have hname : g'.ntName g'.start = g.ntName g.start := by
      have hget := congrArg (·[g.start]?) h.names
      simp only [Array.getElem?_map] at hget
      rw [ntName, h.start, hget, ntName]
    simp only [Grammar.augment, Array.map_push, h.names, hname]
  precs := h.precs
  start := h.size_nts
  eof := h.eof
  error := h.error
  size := by rw [size_prods_augment, size_prods_augment, h.size]
  prods p := by
    rcases Nat.lt_trichotomy p g.prods.size with hlt | rfl | hgt
    · have hlt' := h.lt_iff.2 hlt
      simp only [Grammar.augment]
      rw [Array.getElem?_push, Array.getElem?_push, if_neg (Nat.ne_of_lt hlt'),
        if_neg (Nat.ne_of_lt hlt), h.prods]
    · rw [h.fixed _ (Nat.le_refl _)]
      simp only [Grammar.augment]
      rw [Array.getElem?_push, Array.getElem?_push, if_pos h.size.symm, if_pos rfl, h.size_nts,
        h.start, h.eof]
    · rw [h.fixed p (Nat.le_of_lt hgt),
        Array.getElem?_eq_none (by rw [size_prods_augment, h.size]; omega),
        Array.getElem?_eq_none (by rw [size_prods_augment]; omega)]
  listed n p := by
    rcases Nat.lt_trichotomy n g.nts.size with hlt | rfl | hgt
    · rw [prodsOf_augment (h.size_nts.symm ▸ hlt), prodsOf_augment hlt, h.listed]
    · rw [prodsOf_augment_size, ← h.size_nts, prodsOf_augment_size, List.mem_singleton,
        List.mem_singleton, h.size, ← Equiv.eq_symm_apply, ← h.size, h.symm.fixed _ (Nat.le_refl _),
        h.size]
    · rw [prodsOf_eq_nil (by rw [size_nts_augment, h.size_nts]; omega),
        prodsOf_eq_nil (by rw [size_nts_augment]; omega)]
      simp
  fixed p hp := h.fixed p (by rw [size_prods_augment] at hp; omega)

end Reordered

end Grammar

/-! ### Drafts -/

/-- Lists that are permutations of each other have the same entries up to a permutation of the
positions. -/
theorem exists_perm_getElem? {β : Type} {l l' : List β} (h : l.Perm l') :
    ∃ π : Equiv.Perm Nat, (∀ i, l'[π i]? = l[i]?) ∧ ∀ i, l.length ≤ i → π i = i := by
  induction h with
  | nil => exact ⟨Equiv.refl _, fun _ => rfl, fun _ _ => rfl⟩
  | @cons b l l' _ ih =>
    obtain ⟨π, hget, hfixed⟩ := ih
    refine ⟨⟨fun | 0 => 0 | i + 1 => π i + 1, fun | 0 => 0 | i + 1 => π.symm i + 1, ?_, ?_⟩, ?_, ?_⟩
    · rintro (_ | i)
      · rfl
      · simp
    · rintro (_ | i)
      · rfl
      · simp
    · rintro (_ | i)
      · rfl
      · exact hget i
    · rintro (_ | i) hi
      · rfl
      · exact congrArg (· + 1) (hfixed i (Nat.le_of_succ_le_succ hi))
  | swap b c l =>
    refine ⟨Equiv.swap 0 1, ?_, ?_⟩
    · rintro (_ | _ | i)
      · rfl
      · rfl
      · rw [Equiv.swap_apply_of_ne_of_ne (by omega) (by omega)]
        rfl
    · intro i hi
      rw [List.length_cons, List.length_cons] at hi
      exact Equiv.swap_apply_of_ne_of_ne (by omega) (by omega)
  | @trans l l' l'' h _ ih ih' =>
    obtain ⟨π, hget, hfixed⟩ := ih
    obtain ⟨σ, hget', hfixed'⟩ := ih'
    refine ⟨π.trans σ, fun i => ?_, fun i hi => ?_⟩
    · rw [Equiv.trans_apply, hget', hget]
    · rw [Equiv.trans_apply, hfixed i hi, hfixed' i (h.length_eq ▸ hi)]

namespace Draft

variable {d : Draft} {ps ps' : List Production}

/-- Declares a production together with the group that it is given, if there is one. -/
def produce (d : Draft) (p : Production) : Draft :=
  match p.prec with
  | none => (d.production p.nt p.symbols).1
  | some group => (d.production p.nt p.symbols).1.setPrec (d.production p.nt p.symbols).2 group

/-- Declares productions one after the other. -/
def produceAll (d : Draft) (ps : List Production) : Draft := ps.foldl produce d

theorem Declared.produceAll (h : d.Declared) (ps : List Production) : (d.produceAll ps).Declared := by
  induction ps generalizing d with
  | nil => exact h
  | cons p ps ih =>
    refine ih ?_
    rw [produce]
    split
    · exact h.production _ _
    · exact (h.production _ _).setPrec _ _

theorem produce_eq (d : Draft) (p : Production) : d.produce p =
    { d with
      prods := d.prods.push p
      nts := d.nts.modify p.nt fun n => { n with prods := n.prods ++ [d.prods.size] } } := by
  obtain ⟨nt, symbols, prec⟩ := p
  cases prec with
  | none => rfl
  | some group =>
    have hprods : (d.prods.push ⟨nt, symbols, none⟩).modify d.prods.size
        (fun p => { p with prec := some group }) = d.prods.push ⟨nt, symbols, some group⟩ := by
      refine Array.ext_getElem? fun i => ?_
      rw [Array.getElem?_modify, Array.getElem?_push, Array.getElem?_push]
      by_cases heq : i = d.prods.size
      · simp [heq]
      · simp [heq, Ne.symm heq]
    simp only [produce, setPrec, production, hprods]

/-- What a nonterminal lists after one more production. -/
theorem mem_prods_produce {n p : Nat} {prod : Production} :
    p ∈ ((d.produce prod).nts[n]?.map Nonterminal.prods).getD [] ↔
      p ∈ (d.nts[n]?.map Nonterminal.prods).getD [] ∨
        n < d.nts.size ∧ p = d.prods.size ∧ prod.nt = n := by
  rw [produce_eq, Array.getElem?_modify]
  by_cases hn : n < d.nts.size
  · rw [Array.getElem?_eq_getElem hn]
    split
    · next heq => simp [heq, hn]
    · next hne => simp [hne]
  · rw [Array.getElem?_eq_none (Nat.le_of_not_lt hn)]
    simp [hn]

/-- What is known of a draft whose productions have been declared last. -/
structure Produced (d : Draft) (ps : List Production) (d' : Draft) : Prop where
  terminals : d'.terminals = d.terminals
  names : d'.nts.map Nonterminal.name = d.nts.map Nonterminal.name
  precs : d'.precs = d.precs
  members : d'.members = d.members
  error : d'.error = d.error
  prods : d'.prods = ps.toArray
  listed : ∀ n p, p ∈ (d'.nts[n]?.map Nonterminal.prods).getD [] ↔
    n < d.nts.size ∧ ∃ prod, ps[p]? = some prod ∧ prod.nt = n

theorem Produced.size_nts {d' : Draft} (h : Produced d ps d') : d'.nts.size = d.nts.size := by
  have := congrArg Array.size h.names
  rwa [Array.size_map, Array.size_map] at this

/-- The induction is on the productions from the last one on. -/
theorem Consistent.produced (h : d.Consistent) (hnone : d.prods = #[]) (ps : List Production) :
    Produced d ps (d.produceAll ps) := by
  induction ps using List.reverseRecOn with
  | nil =>
    refine
      { terminals := rfl, names := rfl, precs := rfl, members := rfl, error := rfl, prods := hnone
        listed := fun n p => ⟨fun hp => ?_, fun hp => by simp at hp⟩ }
    obtain ⟨nt, hnt, hp⟩ : ∃ nt, d.nts[n]? = some nt ∧ p ∈ nt.prods := by
      cases hnt : d.nts[n]? with
      | none => simp [produceAll, hnt] at hp
      | some nt => exact ⟨nt, rfl, by simpa [produceAll, hnt] using hp⟩
    obtain ⟨prod, hprod, -⟩ := h.own hnt p hp
    simp [hnone] at hprod
  | append_singleton ps prod ih =>
    have hall : d.produceAll (ps ++ [prod]) = (d.produceAll ps).produce prod := by
      simp [produceAll]
    have hget : ∀ {p prod'}, (ps ++ [prod])[p]? = some prod' ↔
        ps[p]? = some prod' ∨ p = ps.length ∧ prod = prod' := by
      intro p prod'
      rcases Nat.lt_trichotomy p ps.length with hlt | rfl | hgt
      · rw [List.getElem?_append_left hlt]
        simp [Nat.ne_of_lt hlt]
      · simp
      · rw [List.getElem?_eq_none (by simp; omega), List.getElem?_eq_none (Nat.le_of_lt hgt)]
        simp [Nat.ne_of_gt hgt]
    rw [hall]
    refine
      { terminals := ?_, names := ?_, precs := ?_, members := ?_, error := ?_, prods := ?_
        listed := fun n p => ?_ }
    · rw [produce_eq, ih.terminals]
    · rw [produce_eq, ← ih.names]
      refine Array.ext_getElem? fun i => ?_
      rw [Array.getElem?_map, Array.getElem?_modify, Array.getElem?_map]
      split
      · rw [Option.map_map]
        rfl
      · rfl
    · rw [produce_eq, ih.precs]
    · rw [produce_eq, ih.members]
    · rw [produce_eq, ih.error]
    · rw [produce_eq, ih.prods, List.push_toArray]
    · rw [mem_prods_produce, ih.listed, ih.size_nts, ih.prods, List.size_toArray]
      simp only [hget]
      constructor
      · rintro (⟨hn, prod', hprod', hnt⟩ | ⟨hn, hp, hnt⟩)
        · exact ⟨hn, prod', Or.inl hprod', hnt⟩
        · exact ⟨hn, prod, Or.inr ⟨hp, rfl⟩, hnt⟩
      · rintro ⟨hn, prod', hprod' | ⟨hp, rfl⟩, hnt⟩
        · exact Or.inl ⟨hn, prod', hprod', hnt⟩
        · exact Or.inr ⟨hn, hp, hnt⟩

/-- Productions that are declared in another order make a grammar that differs only in their order. -/
theorem Consistent.exists_reordered (h : d.Consistent) (hnone : d.prods = #[]) (hperm : ps.Perm ps')
    {start : Nat} {g g' : Grammar} (hg : (d.produceAll ps).build start = .ok g)
    (hg' : (d.produceAll ps').build start = .ok g') : ∃ π, Grammar.Reordered π g g' := by
  have hps := h.produced hnone ps
  have hps' := h.produced hnone ps'
  obtain ⟨π, hget, hfixed⟩ := exists_perm_getElem? hperm
  obtain ⟨e, he, rfl⟩ := exists_settles_of_build hg
  obtain ⟨e', he', rfl⟩ := exists_settles_of_build hg'
  have hterminals : e'.terminals = e.terminals := by
    have hgroups := he'.groups
    rw [hps'.members, hps'.terminals, ← hps.members, ← hps.terminals, he.groups] at hgroups
    exact (Except.ok.inj hgroups).symm
  have hnames : e'.nts.map Nonterminal.name = e.nts.map Nonterminal.name := by
    rw [he'.nts, he.nts, hps'.names, hps.names]
  have hsize : e.prods.size = ps.length := by rw [he.size_prods, hps.prods, List.size_toArray]
  have hsize' : e'.prods.size = ps.length := by
    rw [he'.size_prods, hps'.prods, List.size_toArray, hperm.length_eq]
  refine ⟨π, ?_⟩
  refine
    { terminals := ?_, names := hnames, precs := ?_, start := rfl, eof := ?_, error := ?_
      size := hsize'.trans hsize.symm, prods := fun p => ?_, listed := fun n p => ?_
      fixed := fun p hp => hfixed p (Nat.le_trans (Nat.le_of_eq hsize.symm) hp) }
  · simp only [finish, hterminals]
  · rw [finish, he'.precs, hps'.precs, finish, he.precs, hps.precs]
  · simp only [finish, hterminals]
  · rw [finish, he'.error, hps'.error, finish, he.error, hps.error]
  · change e'.prods[π p]? = e.prods[p]?
    cases hp : ps[p]? with
    | none =>
      have hle := List.getElem?_eq_none_iff.1 hp
      rw [hfixed p hle, Array.getElem?_eq_none (by omega), Array.getElem?_eq_none (by omega)]
    | some prod =>
      -- a production is settled by the groups of the terminals, wherever it stands
      have hdeclared : (d.produceAll ps).prods[p]? = some prod := by
        rw [hps.prods, List.getElem?_toArray, hp]
      have hdeclared' : (d.produceAll ps').prods[π p]? = some prod := by
        rw [hps'.prods, List.getElem?_toArray, hget, hp]
      obtain ⟨settled, hsettled, hok⟩ := he.settled hdeclared
      obtain ⟨settled', hsettled', hok'⟩ := he'.settled hdeclared'
      rw [hterminals, hps'.size_nts, ← hps.size_nts, hok] at hok'
      rw [hsettled, hsettled', Except.ok.inj hok']
  · change π p ∈ (e'.nts[n]?.map Nonterminal.prods).getD [] ↔
      p ∈ (e.nts[n]?.map Nonterminal.prods).getD []
    rw [he'.nts, he.nts, hps'.listed, hps.listed, hget]

end Draft

end ShiftReduce
