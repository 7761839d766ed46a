import ShiftReduce.Grammar.Draft
import ShiftReduce.Proofs.Grammar.WellFormed

/-!
# Drafts make well-formed grammars

`Draft.Consistent` is what every declaration keeps: the productions listed for a nonterminal are its
own, and the terminal for wrong input has no pattern. Together with the checks that are made at the
end it gives a well-formed grammar (`Draft.wellFormed_of_build`).
-/

namespace ShiftReduce

theorem eq_ok_of_toOption {ε β : Type} {x : Except ε β} {v : β} (h : x.toOption = some v) :
    x = .ok v := by
  cases x with
  | error e => exact absurd h (by simp [Except.toOption])
  | ok v' => exact congrArg Except.ok (Option.some.inj h)

/-- A result of which a property has been computed. -/
theorem exists_ok {ε β : Type} {x : Except ε β} {P : β → Prop} [DecidablePred P]
    (h : (x.toOption.map fun v => decide (P v)) = some true) : ∃ v, x = .ok v ∧ P v := by
  obtain ⟨v, hv, hP⟩ := Option.map_eq_some_iff.1 h
  exact ⟨v, eq_ok_of_toOption hv, of_decide_eq_true hP⟩

namespace Draft

variable {d : Draft}

/-- What the declarations keep. -/
structure Consistent (d : Draft) : Prop where
  nodup : ∀ {n : Nat} {nt : Nonterminal}, d.nts[n]? = some nt → nt.prods.Nodup
  own : ∀ {n : Nat} {nt : Nonterminal}, d.nts[n]? = some nt → ∀ p ∈ nt.prods,
    ∃ prod, d.prods[p]? = some prod ∧ prod.nt = n
  error : ∀ {e : Nat}, d.error = some e → ∃ t, d.terminals[e]? = some t ∧ t.pattern = none

theorem consistent_empty : Consistent empty where
  nodup h := by simp [empty] at h
  own h := by simp [empty] at h
  error h := by simp [empty] at h

theorem getElem?_push_of_some {β : Type} {as : Array β} {i : Nat} {a : β} (h : as[i]? = some a)
    (b : β) : (as.push b)[i]? = some a := by
  obtain ⟨hlt, -⟩ := Array.getElem?_eq_some_iff.1 h
  rw [Array.getElem?_push, if_neg (Nat.ne_of_lt hlt), h]

theorem Consistent.pushTerminal (h : d.Consistent) (t : Terminal) :
    (d.pushTerminal t).1.Consistent where
  nodup := h.nodup
  own := h.own
  error he := by
    obtain ⟨t', ht', hpattern⟩ := h.error he
    exact ⟨t', getElem?_push_of_some ht' t, hpattern⟩

theorem Consistent.errorTerminal (h : d.Consistent) : d.errorTerminal.1.Consistent := by
  rw [Draft.errorTerminal]
  split
  · exact h
  · refine { nodup := h.nodup, own := h.own, error := ?_ }
    intro e he
    obtain rfl : d.terminals.size = e := Option.some.inj he
    exact ⟨_, Array.getElem?_push_size, rfl⟩

theorem size_errorTerminal (d : Draft) : d.errorTerminal.1.prods = d.prods ∧
    (d.errorTerminal.1.terminals.size = d.terminals.size ∨
      d.errorTerminal.1.terminals.size = d.terminals.size + 1) := by
  rw [Draft.errorTerminal]
  split
  · exact ⟨rfl, Or.inl rfl⟩
  · exact ⟨rfl, Or.inr (Array.size_push _)⟩

theorem Consistent.nonterminal (h : d.Consistent) (name : String) :
    (d.nonterminal name).1.Consistent := by
  have hnts : ∀ {n : Nat} {nt : Nonterminal}, (d.nonterminal name).1.nts[n]? = some nt →
      d.nts[n]? = some nt ∨ nt.prods = [] := by
    intro n nt hn
    rw [Draft.nonterminal, Array.getElem?_push] at hn
    split at hn
    · rw [← Option.some.inj hn]
      exact Or.inr rfl
    · exact Or.inl hn
  refine { nodup := ?_, own := ?_, error := h.error }
  · intro n nt hn
    rcases hnts hn with hold | hnil
    · exact h.nodup hold
    · rw [hnil]
      exact List.nodup_nil
  · intro n nt hn p hp
    rcases hnts hn with hold | hnil
    · exact h.own hold p hp
    · rw [hnil] at hp
      exact absurd hp List.not_mem_nil

/-- A new production gets a number that no list has. -/
theorem Consistent.production (h : d.Consistent) (nt : Nat) (symbols : List Symbol) :
    (d.production nt symbols).1.Consistent := by
  have hnts : ∀ {n : Nat} {m : Nonterminal}, (d.production nt symbols).1.nts[n]? = some m →
      d.nts[n]? = some m ∨ n = nt ∧ ∃ m', d.nts[n]? = some m' ∧ m.prods = m'.prods ++ [d.prods.size] := by
    intro n m hm
    rw [Draft.production, Array.getElem?_modify] at hm
    split at hm
    · next heq =>
      obtain ⟨m', hm', rfl⟩ := Option.map_eq_some_iff.1 hm
      exact Or.inr ⟨heq.symm, m', hm', rfl⟩
    · exact Or.inl hm
  have hprods : ∀ {p : Nat} {prod}, d.prods[p]? = some prod →
      (d.production nt symbols).1.prods[p]? = some prod := fun hp => getElem?_push_of_some hp _
  refine { nodup := ?_, own := ?_, error := h.error }
  · intro n m hm
    rcases hnts hm with hold | ⟨-, m', hm', hlist⟩
    · exact h.nodup hold
    · rw [hlist]
      refine List.nodup_append.2 ⟨h.nodup hm', List.nodup_singleton _, ?_⟩
      intro p hp p' hp' heq
      obtain ⟨prod, hprod, -⟩ := h.own hm' p hp
      obtain ⟨hlt, -⟩ := Array.getElem?_eq_some_iff.1 hprod
      rw [heq, List.mem_singleton.1 hp'] at hlt
      exact Nat.lt_irrefl _ hlt
  · intro n m hm p hp
    rcases hnts hm with hold | ⟨heq, m', hm', hlist⟩
    · obtain ⟨prod, hprod, hnt⟩ := h.own hold p hp
      exact ⟨prod, hprods hprod, hnt⟩
    · rw [hlist, List.mem_append, List.mem_singleton] at hp
      rcases hp with hp | rfl
      · obtain ⟨prod, hprod, hnt⟩ := h.own hm' p hp
        exact ⟨prod, hprods hprod, hnt⟩
      · exact ⟨_, Array.getElem?_push_size, heq.symm⟩

theorem Consistent.setPrec (h : d.Consistent) (prod group : Nat) :
    (d.setPrec prod group).Consistent where
  nodup := h.nodup
  own hn p hp := by
    obtain ⟨q, hq, hnt⟩ := h.own hn p hp
    rw [Draft.setPrec, Array.getElem?_modify, hq]
    split
    · exact ⟨_, rfl, hnt⟩
    · exact ⟨q, rfl, hnt⟩
  error := h.error

theorem Consistent.precGroup (h : d.Consistent) (assoc : Assoc) (terminals : List Nat) :
    (d.precGroup assoc terminals).1.Consistent where
  nodup := h.nodup
  own := h.own
  error := h.error

/-! ### Checks -/

/-- Groups do not change what else is known of a terminal. -/
theorem assignGroups_spec {members : List (Nat × Nat)} {ts ts' : Array Terminal}
    (h : assignGroups members ts = .ok ts') : ts'.size = ts.size ∧
      ∀ {β : Type} (f : Terminal → β), (∀ t prec, f { t with prec := prec } = f t) →
        ∀ i : Nat, ts'[i]?.map f = ts[i]?.map f := by
  induction members generalizing ts with
  | nil =>
    obtain rfl : ts = ts' := Except.ok.inj h
    exact ⟨rfl, fun _ _ _ => rfl⟩
  | cons member members ih =>
    obtain ⟨group, t⟩ := member
    rw [assignGroups] at h
    split at h
    · exact absurd h (by simp)
    · next terminal hterminal =>
      split at h
      · exact absurd h (by simp)
      · obtain ⟨hsize, hrest⟩ := ih h
        refine ⟨hsize.trans Array.size_setIfInBounds, fun f hf i => (hrest f hf i).trans ?_⟩
        rw [Array.getElem?_setIfInBounds]
        split
        · next heq =>
          subst heq
          obtain ⟨hlt, -⟩ := Array.getElem?_eq_some_iff.1 hterminal
          rw [if_pos hlt, hterminal]
          exact congrArg some (hf terminal (some group))
        · rfl

theorem settleProd_spec {ts : Array Terminal} {nts : Nat} {p p' : Production}
    (h : settleProd ts nts p = .ok p') : p'.nt = p.nt ∧ p'.symbols = p.symbols ∧ p.nt < nts ∧
      ∀ x ∈ p.symbols, knows ts.size nts x = true := by
  rw [settleProd] at h
  split at h
  · next hknown =>
    rw [← Except.ok.inj h]
    exact ⟨rfl, rfl, hknown.1, List.all_eq_true.1 hknown.2⟩
  · exact absurd h (by simp)

theorem getElem?_of_mapM {β γ ε : Type} {f : β → Except ε γ} {l : List β} {l' : List γ}
    (h : l.mapM f = .ok l') : l'.length = l.length ∧
      ∀ {i : Nat} {b : β}, l[i]? = some b → ∃ c, l'[i]? = some c ∧ f b = .ok c := by
  induction l generalizing l' with
  | nil =>
    obtain rfl : [] = l' := Except.ok.inj h
    exact ⟨rfl, fun hi => by simp at hi⟩
  | cons b l ih =>
    rw [List.mapM_cons] at h
    cases hb : f b with
    | error e =>
      rw [hb] at h
      exact absurd h (by simp [bind, Except.bind])
    | ok c =>
      rw [hb] at h
      cases hl : l.mapM f with
      | error e =>
        rw [hl] at h
        exact absurd h (by simp [bind, Except.bind])
      | ok cs =>
        rw [hl] at h
        obtain rfl : c :: cs = l' := Except.ok.inj h
        obtain ⟨hlength, hget⟩ := ih hl
        refine ⟨congrArg (· + 1) hlength, ?_⟩
        intro i b' hi
        cases i with
        | zero =>
          obtain rfl : b = b' := Option.some.inj hi
          exact ⟨c, rfl, hb⟩
        | succ i => exact hget hi

/-- A draft that is settled has the symbols and productions of the one before, with their groups. -/
structure Settles (d d' : Draft) (start : Nat) : Prop where
  start_lt : start < d.nts.size
  nts : d'.nts = d.nts
  precs : d'.precs = d.precs
  error : d'.error = d.error
  groups : assignGroups d.members d.terminals = .ok d'.terminals
  size_prods : d'.prods.size = d.prods.size
  settled : ∀ {p : Nat} {prod}, d.prods[p]? = some prod → ∃ prod', d'.prods[p]? = some prod' ∧
    settleProd d'.terminals d.nts.size prod = .ok prod'

theorem settles_of_settle {d' : Draft} {start : Nat} (h : d.settle start = .ok d') :
    Settles d d' start := by
  rw [settle] at h
  by_cases hstart : d.nts.size ≤ start
  · rw [if_pos hstart] at h
    exact absurd h (by simp [throw, throwThe, MonadExceptOf.throw, bind, Except.bind])
  rw [if_neg hstart] at h
  cases hts : assignGroups d.members d.terminals with
  | error e =>
    rw [hts] at h
    exact absurd h (by simp [bind, Except.bind])
  | ok ts =>
    rw [hts] at h
    cases hprods : d.prods.toList.mapM (settleProd ts d.nts.size) with
    | error e =>
      simp only [bind, Except.bind, hprods] at h
      exact absurd h (by simp)
    | ok prods =>
      simp only [bind, Except.bind, hprods, pure, Except.pure] at h
      obtain rfl : { d with terminals := ts, prods := prods.toArray } = d' := Except.ok.inj h
      obtain ⟨hlength, hget⟩ := getElem?_of_mapM hprods
      refine
        { start_lt := Nat.lt_of_not_le hstart, nts := rfl, precs := rfl, error := rfl, groups := hts,
          size_prods := hlength, settled := ?_ }
      intro p prod hp
      obtain ⟨prod', hp', hsettled⟩ := hget (Array.getElem?_toList.trans hp)
      exact ⟨prod', List.getElem?_toArray.trans hp', hsettled⟩

theorem Settles.size {d' : Draft} {start : Nat} (h : Settles d d' start) :
    d'.terminals.size = d.terminals.size :=
  (assignGroups_spec h.groups).1

theorem Settles.map_terminals {d' : Draft} {start : Nat} (h : Settles d d' start) {β : Type}
    {f : Terminal → β} (hf : ∀ t prec, f { t with prec := prec } = f t) (i : Nat) :
    d'.terminals[i]?.map f = d.terminals[i]?.map f :=
  (assignGroups_spec h.groups).2 f hf i

theorem Settles.pattern {d' : Draft} {start : Nat} (h : Settles d d' start) (i : Nat) :
    d'.terminals[i]?.map Terminal.pattern = d.terminals[i]?.map Terminal.pattern :=
  h.map_terminals (fun _ _ => rfl) i

theorem Settles.prods {d' : Draft} {start : Nat} (h : Settles d d' start) {p : Nat}
    {prod : Production} (hp : d.prods[p]? = some prod) : ∃ prod', d'.prods[p]? = some prod' ∧
      prod'.nt = prod.nt ∧ prod'.symbols = prod.symbols ∧ prod.nt < d.nts.size ∧
      ∀ x ∈ prod.symbols, knows d.terminals.size d.nts.size x = true := by
  obtain ⟨prod', hp', hsettled⟩ := h.settled hp
  obtain ⟨hnt, hsymbols, hlt, hknown⟩ := settleProd_spec hsettled
  rw [h.size] at hknown
  exact ⟨prod', hp', hnt, hsymbols, hlt, hknown⟩

theorem exists_settles_of_build {start : Nat} {g : Grammar} (h : d.build start = .ok g) :
    ∃ d', Settles d d' start ∧ g = d'.finish start := by
  rw [build, construct] at h
  split at h
  · exact absurd h (by simp)
  · next d' hd' =>
    simp only at h
    split at h
    · exact absurd h (by simp)
    · exact ⟨d', settles_of_settle hd', (Except.ok.inj h).symm⟩

/-- The productions of a finished grammar. -/
theorem Settles.getElem?_prods {d' : Draft} {start : Nat} (h : Settles d d' start) {p : Nat}
    (hp : p < (d'.finish start).prods.size) : ∃ prod, d.prods[p]? = some prod ∧
      (d'.finish start).lhs p = prod.nt ∧ (d'.finish start).rhs p = prod.symbols ∧
      prod.nt < d.nts.size ∧ ∀ x ∈ prod.symbols, knows d.terminals.size d.nts.size x = true := by
  have hlt : p < d.prods.size := Nat.lt_of_lt_of_eq hp h.size_prods
  have hget := Array.getElem?_eq_getElem hlt
  obtain ⟨prod', hp', hnt, hsymbols, hlt', hknown⟩ := h.prods hget
  refine ⟨_, hget, ?_, ?_, hlt', hknown⟩
  · rw [Grammar.lhs_of_getElem? hp', hnt]
  · rw [Grammar.rhs_of_getElem? hp', hsymbols]

/-- A draft makes only well-formed grammars. -/
theorem Consistent.wellFormed (h : d.Consistent) {start : Nat} {g : Grammar}
    (hg : d.build start = .ok g) : g.WellFormed := by
  obtain ⟨d', hd', rfl⟩ := exists_settles_of_build hg
  have hsize : (d'.finish start).terminals.size = d.terminals.size + 1 := by
    rw [finish, Array.size_push, hd'.size]
  have hnts : (d'.finish start).nts = d.nts := hd'.nts
  have heof : (d'.finish start).eof = d.terminals.size := hd'.size
  refine Grammar.wellFormed_iff.2 ⟨?_, ?_, ?_, ?_⟩
  · intro p hp
    obtain ⟨prod, -, hlhs, hrhs, hlt, hknown⟩ := hd'.getElem?_prods hp
    rw [hlhs, hrhs, hnts]
    refine ⟨hlt, ?_⟩
    rintro (n | t) hx
    · have := hknown _ hx
      simp only [knows, decide_eq_true_eq] at this
      rw [Grammar.Within, hnts]
      exact this
    · have := hknown _ hx
      simp only [knows, decide_eq_true_eq] at this
      rw [Grammar.Within, hsize, heof]
      omega
  · intro n hn
    rw [hnts] at hn
    have hget := Array.getElem?_eq_getElem hn
    have hlist : (d'.finish start).prodsOf n = d.nts[n].prods := by
      rw [Grammar.prodsOf, hnts, hget]
      rfl
    rw [hlist]
    refine ⟨h.nodup hget, ?_⟩
    intro p hp
    obtain ⟨prod, hprod, hnt⟩ := h.own hget p hp
    obtain ⟨hlt, -⟩ := Array.getElem?_eq_some_iff.1 hprod
    have hlt' : p < (d'.finish start).prods.size := Nat.lt_of_lt_of_eq hlt hd'.size_prods.symm
    obtain ⟨prod', hprod', hlhs, -⟩ := hd'.getElem?_prods hlt'
    obtain rfl : prod = prod' := Option.some.inj (hprod.symm.trans hprod')
    exact ⟨hlt', hlhs.trans hnt⟩
  · rw [hnts]
    exact hd'.start_lt
  · rw [heof, hsize]
    exact Nat.lt_succ_self _

/-- The terminal for wrong input is one of the grammar. -/
theorem Consistent.error_lt (h : d.Consistent) {start : Nat} {g : Grammar}
    (hg : d.build start = .ok g) {e : Nat} (he : g.error = some e) : e < g.terminals.size := by
  obtain ⟨d', hd', rfl⟩ := exists_settles_of_build hg
  have herror : d.error = some e := hd'.error ▸ he
  obtain ⟨t, ht, -⟩ := h.error herror
  obtain ⟨hlt, -⟩ := Array.getElem?_eq_some_iff.1 ht
  rw [finish, Array.size_push, hd'.size]
  exact Nat.lt_succ_of_lt hlt

/-! ### Patterns -/

theorem exists_terminal_of_mem_patterns {g : Grammar} {q : Pattern} (h : q ∈ g.patterns) :
    ∃ t, g.terminals[q.terminal]? = some t ∧ t.pattern ≠ none := by
  obtain ⟨⟨t, i⟩, hmem, hpattern⟩ := List.mem_filterMap.1 h
  obtain ⟨regex, hregex, rfl⟩ := Option.map_eq_some_iff.1 hpattern
  refine ⟨t, ?_, fun hnone => absurd (hregex.symm.trans hnone) (by simp)⟩
  have := List.mem_zipIdx_iff_getElem?.1 hmem
  rwa [Array.getElem?_toList] at this

/-- Neither the end of the input nor the terminal for wrong input has a pattern. -/
theorem Consistent.not_mem_patterns (h : d.Consistent) {start : Nat} {g : Grammar}
    (hg : d.build start = .ok g) {q : Pattern} (hq : q ∈ g.patterns) :
    q.terminal ≠ g.eof ∧ g.error ≠ some q.terminal := by
  obtain ⟨d', hd', rfl⟩ := exists_settles_of_build hg
  obtain ⟨t, ht, hpattern⟩ := exists_terminal_of_mem_patterns hq
  constructor
  · intro heq
    rw [heq, finish, Array.getElem?_push_size, Option.some.injEq] at ht
    rw [← ht] at hpattern
    exact hpattern rfl
  · intro heq
    have herror : d.error = some q.terminal := hd'.error ▸ heq
    obtain ⟨t₀, ht₀, hnone⟩ := h.error herror
    have hmap := hd'.pattern q.terminal
    rw [ht₀] at hmap
    obtain ⟨t', ht', hpattern'⟩ := Option.map_eq_some_iff.1 hmap
    rw [finish, getElem?_push_of_some ht', Option.some.injEq] at ht
    rw [← ht, hpattern', hnone] at hpattern
    exact hpattern rfl

end Draft

end ShiftReduce
