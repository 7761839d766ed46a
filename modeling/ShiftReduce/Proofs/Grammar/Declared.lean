import ShiftReduce.Proofs.Grammar.Draft

/-!
# Drafts that are declared

`Draft.Declared` are the drafts that can be made by declarations, whatever symbols, productions and
groups these mention. Besides what `Draft.Consistent` says, no terminal of such a draft has a group
before it is built, and groups are numbered by their levels (`Draft.Ungrouped`).

A draft makes a grammar if its start symbol has been declared, no terminal is a member of two groups,
all symbols have been declared, and no nonterminal that is needed lacks productions
(`Draft.build_eq_finish`). The group of a terminal of the grammar is then the one that it was declared a
member of (`Draft.Declared.terminalPrec_eq_some_iff`).
-/

namespace ShiftReduce

namespace Draft

variable {d d' : Draft} {start : Nat}

/-- The drafts that can be made by declarations. -/
inductive Declared : Draft → Prop
  | empty : Declared empty
  | terminal {d : Draft} (h : Declared d) (name : String) (pattern : Regex) (skip : Bool) :
    Declared (d.terminal name pattern skip).1
  | literal {d : Draft} (h : Declared d) (name : String) (pattern : Regex) :
    Declared (d.literal name pattern).1
  | errorTerminal {d : Draft} (h : Declared d) : Declared d.errorTerminal.1
  | nonterminal {d : Draft} (h : Declared d) (name : String) : Declared (d.nonterminal name).1
  | production {d : Draft} (h : Declared d) (nt : Nat) (symbols : List Symbol) :
    Declared (d.production nt symbols).1
  | setPrec {d : Draft} (h : Declared d) (prod group : Nat) : Declared (d.setPrec prod group)
  | precGroup {d : Draft} (h : Declared d) (assoc : Assoc) (terminals : List Nat) :
    Declared (d.precGroup assoc terminals).1

theorem Declared.consistent (h : d.Declared) : d.Consistent := by
  induction h with
  | empty => exact consistent_empty
  | terminal _ name pattern skip ih => exact ih.pushTerminal _
  | literal _ name pattern ih => exact ih.pushTerminal _
  | errorTerminal _ ih => exact ih.errorTerminal
  | nonterminal _ name ih => exact ih.nonterminal name
  | production _ nt symbols ih => exact ih.production nt symbols
  | setPrec _ prod group ih => exact ih.setPrec prod group
  | precGroup _ assoc terminals ih => exact ih.precGroup assoc terminals

/-- No terminal has a group yet, the level of a group is its number, and the groups that have members
have been declared. -/
structure Ungrouped (d : Draft) : Prop where
  prec : ∀ {t : Nat} {terminal : Terminal}, d.terminals[t]? = some terminal → terminal.prec = none
  level : ∀ {i : Nat} {group : PrecGroup}, d.precs[i]? = some group → group.level = i
  member : ∀ m ∈ d.members, m.1 < d.precs.size

theorem Ungrouped.pushTerminal (h : d.Ungrouped) {terminal : Terminal} (hprec : terminal.prec = none) :
    (d.pushTerminal terminal).1.Ungrouped where
  prec ht := by
    rw [Draft.pushTerminal, Array.getElem?_push] at ht
    split at ht
    · rw [← Option.some.inj ht, hprec]
    · exact h.prec ht
  level := h.level
  member := h.member

theorem Ungrouped.errorTerminal (h : d.Ungrouped) : d.errorTerminal.1.Ungrouped := by
  rw [Draft.errorTerminal]
  split
  · exact h
  · have hpush : (d.pushTerminal ⟨"error", none, false, false, none⟩).1.Ungrouped := h.pushTerminal rfl
    exact ⟨hpush.prec, hpush.level, hpush.member⟩

theorem Ungrouped.precGroup (h : d.Ungrouped) (assoc : Assoc) (terminals : List Nat) :
    (d.precGroup assoc terminals).1.Ungrouped where
  prec := h.prec
  level hi := by
    rw [Draft.precGroup, Array.getElem?_push] at hi
    split at hi
    · next heq => rw [← Option.some.inj hi, heq]
    · exact h.level hi
  member m hm := by
    rw [Draft.precGroup, Array.size_push]
    rcases List.mem_append.1 hm with hm | hm
    · exact Nat.lt_succ_of_lt (h.member m hm)
    · obtain ⟨t, -, rfl⟩ := List.mem_map.1 hm
      exact Nat.lt_succ_self _

theorem Declared.ungrouped (h : d.Declared) : d.Ungrouped := by
  induction h with
  | empty =>
    exact ⟨fun h => by simp [Draft.empty] at h, fun h => by simp [Draft.empty] at h,
      by simp [Draft.empty]⟩
  | terminal _ name pattern skip ih => exact ih.pushTerminal rfl
  | literal _ name pattern ih => exact ih.pushTerminal rfl
  | errorTerminal _ ih => exact ih.errorTerminal
  | nonterminal _ name ih => exact ⟨ih.prec, ih.level, ih.member⟩
  | production _ nt symbols ih => exact ⟨ih.prec, ih.level, ih.member⟩
  | setPrec _ prod group ih => exact ⟨ih.prec, ih.level, ih.member⟩
  | precGroup _ assoc terminals ih => exact ih.precGroup assoc terminals

/-! ### Groups -/

/-- The terminal was declared a member of the group. -/
def InGroup (d : Draft) (t : Nat) (group : PrecGroup) : Prop :=
  ∃ i, (i, t) ∈ d.members ∧ d.precs[i]? = some group

/-- Members that have been declared, each once, get their groups. -/
theorem exists_assignGroups {members : List (Nat × Nat)} {ts : Array Terminal}
    (hlt : ∀ m ∈ members, m.2 < ts.size) (hnodup : (members.map Prod.snd).Nodup)
    (hnone : ∀ m ∈ members, ∀ terminal, ts[m.2]? = some terminal → terminal.prec = none) :
    ∃ ts', assignGroups members ts = .ok ts' := by
  induction members generalizing ts with
  | nil => exact ⟨ts, rfl⟩
  | cons m members ih =>
    obtain ⟨group, t⟩ := m
    obtain ⟨hm, hlt⟩ := List.forall_mem_cons.1 hlt
    obtain ⟨hnone_t, hnone⟩ := List.forall_mem_cons.1 hnone
    obtain ⟨hnew, hnodup⟩ := List.nodup_cons.1 hnodup
    have ht := Array.getElem?_eq_getElem hm
    rw [assignGroups, ht]
    simp only [hnone_t _ ht, Option.isSome_none, Bool.false_eq_true, if_false]
    refine ih (fun m' hm' => ?_) hnodup (fun m' hm' terminal hterminal => ?_)
    · rw [Array.size_setIfInBounds]
      exact hlt m' hm'
    · have hne : t ≠ m'.2 := fun heq => hnew (List.mem_map.2 ⟨m', hm', heq.symm⟩)
      rw [Array.getElem?_setIfInBounds, if_neg hne] at hterminal
      exact hnone m' hm' terminal hterminal

/-- The group of a terminal is the one it is a member of, or the one it had before. -/
theorem assignGroups_eq_some_iff {members : List (Nat × Nat)} {ts ts' : Array Terminal}
    (h : assignGroups members ts = .ok ts') {t group : Nat} :
    ts'[t]?.bind Terminal.prec = some group ↔
      (group, t) ∈ members ∨ ts[t]?.bind Terminal.prec = some group := by
  induction members generalizing ts with
  | nil =>
    obtain rfl : ts = ts' := Except.ok.inj h
    simp
  | cons m members ih =>
    obtain ⟨group₀, t₀⟩ := m
    rw [assignGroups] at h
    split at h
    · exact absurd h (by simp)
    · next terminal hterminal =>
      split at h
      · exact absurd h (by simp)
      · next hfree =>
        rw [ih h, List.mem_cons, Prod.mk.injEq, Array.getElem?_setIfInBounds]
        obtain ⟨hlt, -⟩ := Array.getElem?_eq_some_iff.1 hterminal
        have hnone : terminal.prec = none := by simpa using hfree
        by_cases heq : t₀ = t
        · subst heq
          rw [if_pos rfl, if_pos hlt, hterminal, Option.bind_some, Option.bind_some, hnone]
          simp only [and_true, Option.some.injEq, reduceCtorEq, or_false]
          rw [or_comm, eq_comm]
        · rw [if_neg heq]
          simp only [Ne.symm heq, and_false, false_or]

/-- The groups of the terminals of a settled draft are those that they were declared members of. -/
theorem Settles.prec_eq_some_iff (hd : d.Ungrouped) (h : Settles d d' start) {t group : Nat} :
    d'.terminals[t]?.bind Terminal.prec = some group ↔ (group, t) ∈ d.members := by
  rw [assignGroups_eq_some_iff h.groups, or_iff_left]
  intro hprec
  obtain ⟨terminal, hterminal, hsome⟩ := Option.bind_eq_some_iff.1 hprec
  rw [hd.prec hterminal] at hsome
  exact absurd hsome (by simp)

/-- The terminal for the end of the input has no group, and all others keep theirs. -/
theorem terminalPrec_finish (d' : Draft) (start t : Nat) :
    (d'.finish start).terminalPrec t =
      (d'.terminals[t]?.bind Terminal.prec).bind fun i => d'.precs[i]? := by
  rw [Grammar.terminalPrec, finish, Array.getElem?_push]
  split
  · next heq => rw [Array.getElem?_eq_none (Nat.le_of_eq heq.symm)]; rfl
  · rfl

/-- The group of a terminal of the grammar is the one that it was declared a member of. -/
theorem Declared.terminalPrec_eq_some_iff (h : d.Declared) {g : Grammar}
    (hg : d.build start = .ok g) {t : Nat} {group : PrecGroup} :
    g.terminalPrec t = some group ↔ d.InGroup t group := by
  obtain ⟨d', hd', rfl⟩ := exists_settles_of_build hg
  rw [terminalPrec_finish, Option.bind_eq_some_iff, InGroup, hd'.precs]
  simp only [hd'.prec_eq_some_iff h.ungrouped]

/-! ### Drafts that make a grammar -/

theorem mapM_eq_ok_of_forall {β γ ε : Type} {f : β → Except ε γ} {l : List β}
    (h : ∀ b ∈ l, ∃ c, f b = .ok c) : ∃ cs, l.mapM f = .ok cs := by
  induction l with
  | nil => exact ⟨[], rfl⟩
  | cons b l ih =>
    obtain ⟨⟨c, hc⟩, hl⟩ := List.forall_mem_cons.1 h
    obtain ⟨cs, hcs⟩ := ih hl
    refine ⟨c :: cs, ?_⟩
    rw [List.mapM_cons, hc, hcs]
    rfl

/-- A draft is settled if its start symbol, the members of its groups and the symbols of its
productions have been declared, and no terminal is a member twice. -/
theorem Ungrouped.exists_settle (hd : d.Ungrouped) (hstart : start < d.nts.size)
    (hmembers : ∀ m ∈ d.members, m.2 < d.terminals.size) (hnodup : (d.members.map Prod.snd).Nodup)
    (hprods : ∀ prod ∈ d.prods.toList, prod.nt < d.nts.size ∧
      ∀ x ∈ prod.symbols, knows d.terminals.size d.nts.size x = true) :
    ∃ d', d.settle start = .ok d' := by
  obtain ⟨ts, hts⟩ := exists_assignGroups hmembers hnodup fun _ _ _ ht => hd.prec ht
  obtain ⟨prods, hsettled⟩ : ∃ prods, d.prods.toList.mapM (settleProd ts d.nts.size) = .ok prods := by
    refine mapM_eq_ok_of_forall fun prod hprod => ⟨_, if_pos ?_⟩
    rw [(assignGroups_spec hts).1, List.all_eq_true]
    exact hprods prod hprod
  refine ⟨{ d with terminals := ts, prods := prods.toArray }, ?_⟩
  rw [settle, if_neg (Nat.not_le_of_lt hstart), hts]
  simp only [bind, Except.bind, hsettled, pure, Except.pure]

/-- Without a nonterminal that is needed and has no production there is no error. -/
theorem firstError_eq_none {findings : List Finding} (h : ∀ name, .barren name ∉ findings) :
    (Finding.firstError findings).value = none := by
  induction findings with
  | nil => rfl
  | cons finding findings ih =>
    have htail : ∀ name, .barren name ∉ findings := fun name hmem =>
      h name (List.mem_cons_of_mem _ hmem)
    cases finding with
    | unreachable name => exact ih htail
    | barren name => exact absurd List.mem_cons_self (h name)

/-- A settled draft makes a grammar if no nonterminal that is needed lacks productions. -/
theorem build_eq_finish (hsettle : d.settle start = .ok d')
    (hneeded : ∀ n nt, d'.nts[n]? = some nt → n ∈ d'.reachable start → nt.prods ≠ []) :
    d.build start = .ok (d'.finish start) := by
  have hfound : (Finding.firstError (d'.survey start)).value = none := by
    refine firstError_eq_none fun name hmem => ?_
    obtain ⟨⟨nt, n⟩, hnt, hfinding⟩ := List.mem_filterMap.1 hmem
    rw [List.mem_zipIdx_iff_getElem?, Array.getElem?_toList] at hnt
    split at hfinding
    · exact absurd hfinding (by simp)
    · next hreached =>
      split at hfinding
      · next hnil => exact hneeded n nt hnt (not_not.1 hreached) (List.isEmpty_iff.1 hnil)
      · exact absurd hfinding (by simp)
  simp only [build, construct, hsettle, hfound]

end Draft

end ShiftReduce
