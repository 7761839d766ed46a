import ShiftReduce.Proofs.Grammar.Calls
import ShiftReduce.Proofs.Reach

/-!
# Drafts that are accepted

`Draft.Buildable` says what a draft needs to be a grammar, without reference to the order of the checks:
the symbols that it mentions have been declared, no terminal is a member of precedence groups twice, and
every nonterminal that the start symbol needs has a production on its list. Which nonterminals are needed
is said by the lists alone (`Draft.Needed`).

The main statement is `Draft.build_accepts`: a grammar is made exactly of the buildable drafts, a
nonterminal without productions is reported exactly if it is the first one that is needed, and the group
of a production is the one it was given or else that of the last of its terminals that has one.
-/

namespace ShiftReduce

namespace Draft

variable {d d' : Draft} {start : Nat}

/-! ### What is mentioned -/

/-- The symbols that the draft mentions have been declared, and no terminal is a member twice. -/
structure SymbolsDeclared (d : Draft) (start : Nat) : Prop where
  start_lt : start < d.nts.size
  member_lt : ∀ m ∈ d.members, m.2 < d.terminals.size
  member_once : (d.members.map Prod.snd).Nodup
  lhs_lt : ∀ prod ∈ d.prods, prod.nt < d.nts.size
  terminal_lt : ∀ prod ∈ d.prods, ∀ t, .terminal t ∈ prod.symbols → t < d.terminals.size
  nonterminal_lt : ∀ prod ∈ d.prods, ∀ n, .nonterminal n ∈ prod.symbols → n < d.nts.size

/-- Groups are given to terminals that exist and have none, so to each of them once. -/
theorem members_of_assignGroups {members : List (Nat × Nat)} {ts ts' : Array Terminal}
    (h : assignGroups members ts = .ok ts') : (∀ m ∈ members, m.2 < ts.size) ∧
      (members.map Prod.snd).Nodup ∧ ∀ m ∈ members, ts[m.2]?.bind Terminal.prec = none := by
  induction members generalizing ts with
  | nil => simp
  | cons m members ih =>
    obtain ⟨group, t⟩ := m
    rw [assignGroups] at h
    split at h
    · exact absurd h (by simp)
    · next terminal hterminal =>
      split at h
      · exact absurd h (by simp)
      · next hfree =>
        obtain ⟨hlt, -⟩ := Array.getElem?_eq_some_iff.1 hterminal
        obtain ⟨hsize, honce, hnone⟩ := ih h
        rw [Array.size_setIfInBounds] at hsize
        have hne : ∀ m ∈ members, t ≠ m.2 := by
          intro m hm heq
          have := hnone m hm
          rw [← heq, Array.getElem?_setIfInBounds_self_of_lt hlt] at this
          exact absurd this (by simp)
        refine ⟨List.forall_mem_cons.2 ⟨hlt, hsize⟩, List.nodup_cons.2 ⟨?_, honce⟩,
          List.forall_mem_cons.2 ⟨by simpa [hterminal] using hfree, fun m hm => ?_⟩⟩
        · intro hmem
          obtain ⟨m, hm, heq⟩ := List.mem_map.1 hmem
          exact hne m hm heq.symm
        · have := hnone m hm
          rwa [Array.getElem?_setIfInBounds_ne (hne m hm)] at this

theorem Settles.symbolsDeclared (h : Settles d d' start) : d.SymbolsDeclared start := by
  obtain ⟨hmember, honce, -⟩ := members_of_assignGroups h.groups
  have hprods : ∀ prod ∈ d.prods, prod.nt < d.nts.size ∧
      ∀ x ∈ prod.symbols, knows d.terminals.size d.nts.size x = true := by
    intro prod hprod
    obtain ⟨p, hp, rfl⟩ := Array.getElem_of_mem hprod
    obtain ⟨-, -, -, -, hknown⟩ := h.prods (Array.getElem?_eq_getElem hp)
    exact hknown
  exact
    { start_lt := h.start_lt
      member_lt := hmember
      member_once := honce
      lhs_lt := fun prod hprod => (hprods prod hprod).1
      terminal_lt := fun prod hprod t ht => of_decide_eq_true ((hprods prod hprod).2 _ ht)
      nonterminal_lt := fun prod hprod n hn => of_decide_eq_true ((hprods prod hprod).2 _ hn) }

/-- A draft is settled exactly if all symbols that it mentions have been declared. -/
theorem Ungrouped.exists_settle_iff (hd : d.Ungrouped) :
    (∃ d', d.settle start = .ok d') ↔ d.SymbolsDeclared start := by
  constructor
  · rintro ⟨d', hd'⟩
    exact (settles_of_settle hd').symbolsDeclared
  · intro h
    refine hd.exists_settle h.start_lt h.member_lt h.member_once fun prod hprod => ?_
    rw [Array.mem_toList_iff] at hprod
    refine ⟨h.lhs_lt prod hprod, ?_⟩
    rintro (n | t) hx
    · exact decide_eq_true (h.nonterminal_lt prod hprod n hx)
    · exact decide_eq_true (h.terminal_lt prod hprod t hx)

/-! ### What is needed -/

/-- A production on the list of `n` mentions the nonterminal `m`. -/
def Mentions (d : Draft) (n m : Nat) : Prop :=
  ∃ nt, d.nts[n]? = some nt ∧ ∃ p ∈ nt.prods, ∃ prod, d.prods[p]? = some prod ∧
    .nonterminal m ∈ prod.symbols

/-- The nonterminals that can be reached from `start` through the lists of productions. -/
def Needed (d : Draft) (start : Nat) : Nat → Prop := Relation.ReflTransGen d.Mentions start

theorem mem_mentions {n m : Nat} : m ∈ d.mentions n ↔ d.Mentions n m := by
  simp only [mentions, Mentions, List.mem_flatMap, List.mem_filterMap]
  cases d.nts[n]? with
  | none => simp
  | some nt =>
    simp only [Option.map_some, Option.getD_some, Option.some.injEq, exists_eq_left']
    refine exists_congr fun p => and_congr_right fun _ => ?_
    cases d.prods[p]? with
    | none => simp
    | some prod =>
      simp only [Option.map_some, Option.getD_some, Option.some.injEq, exists_eq_left']
      constructor
      · rintro ⟨k | t, hx, hk⟩
        · obtain rfl : k = m := Option.some.inj hk
          exact hx
        · exact absurd hk (by simp)
      · intro hx
        exact ⟨_, hx, rfl⟩

/-- Settling the groups does not change what is mentioned. -/
theorem Settles.mentions_eq (h : Settles d d' start) : d'.mentions = d.mentions := by
  have hsymbols : ∀ p : Nat, d'.prods[p]?.map Production.symbols = d.prods[p]?.map Production.symbols := by
    intro p
    cases hp : d.prods[p]? with
    | none =>
      have hsize := h.size_prods.trans_le (Array.getElem?_eq_none_iff.1 hp)
      rw [Array.getElem?_eq_none hsize]
    | some prod =>
      obtain ⟨prod', hp', -, heq, -⟩ := h.prods hp
      rw [hp', Option.map_some, Option.map_some, heq]
  funext n
  simp only [mentions, h.nts, hsymbols]

/-- The search finds the nonterminals that are needed. -/
theorem Settles.mem_reachable_iff (h : Settles d d' start) {n : Nat} :
    n ∈ d'.reachable start ↔ d.Needed start n := by
  have hbelow : ∀ v < d'.nts.size, ∀ w ∈ d'.mentions v, w < d'.nts.size := by
    intro v _ w hw
    rw [h.mentions_eq, mem_mentions] at hw
    obtain ⟨nt, -, p, -, prod, hprod, hmem⟩ := hw
    rw [h.nts]
    exact h.symbolsDeclared.nonterminal_lt prod (Array.mem_of_getElem? hprod) w hmem
  have hstart : (IdSet.single start).Below d'.nts.size := by
    intro v hv
    rw [IdSet.mem_single.1 hv, h.nts]
    exact h.start_lt
  have hmentions : (fun v w => w ∈ d.mentions v) = d.Mentions := by
    funext v w
    exact propext mem_mentions
  rw [reachable, mem_reach hbelow hstart, Needed]
  simp only [IdSet.mem_single, exists_eq_left, Leads, h.mentions_eq, hmentions]

/-! ### What is refused -/

/-- A nonterminal that is needed and has no production. -/
def Barren (d : Draft) (start n : Nat) (name : String) : Prop :=
  d.Needed start n ∧ d.nts[n]? = some ⟨name, []⟩

/-- The error that a finding stands for. -/
def errorOf : Finding → Option GrammarError
  | .unreachable _ => none
  | .barren name => some (.noProductions name)

theorem firstError_filterMap {β : Type} (f : β → Option Finding) (l : List β) :
    (Finding.firstError (l.filterMap f)).value = l.findSome? fun b => (f b).bind errorOf := by
  induction l with
  | nil => rfl
  | cons b l ih =>
    rw [List.filterMap_cons, List.findSome?_cons]
    cases f b with
    | none => exact ih
    | some finding =>
      cases finding with
      | unreachable name => exact ih
      | barren name => rfl

/-- The first entry of a list, by its index, for which `f` has a result. -/
theorem findSome?_zipIdx_eq_some_iff {β γ : Type} {f : β × Nat → Option γ} {l : List β} {c : γ} :
    l.zipIdx.findSome? f = some c ↔ ∃ n b, l[n]? = some b ∧ f (b, n) = some c ∧
      ∀ m < n, ∀ b', l[m]? = some b' → f (b', m) = none := by
  rw [List.findSome?_eq_some_iff]
  constructor
  · rintro ⟨l₁, ⟨b, n⟩, l₂, hsplit, hf, hrest⟩
    have hget : ∀ i : Nat, (l₁ ++ (b, n) :: l₂)[i]? = l[i]?.map fun b' => (b', i) := by
      intro i
      rw [← hsplit, List.getElem?_zipIdx]
      simp
    have hlast := hget l₁.length
    rw [List.getElem?_append_right (Nat.le_refl _), Nat.sub_self, List.getElem?_cons_zero] at hlast
    obtain ⟨b', hb', heq⟩ := Option.map_eq_some_iff.1 hlast.symm
    obtain ⟨rfl, rfl⟩ := Prod.mk.inj heq
    refine ⟨_, b', hb', hf, fun m hm b'' hb'' => ?_⟩
    have hbefore := hget m
    rw [List.getElem?_append_left hm, hb'', Option.map_some] at hbefore
    exact hrest _ (List.mem_of_getElem? hbefore)
  · rintro ⟨n, b, hb, hf, hrest⟩
    obtain ⟨hlt, hget⟩ := List.getElem?_eq_some_iff.1 hb
    have hlt' : n < l.zipIdx.length := by rwa [List.length_zipIdx]
    refine ⟨l.zipIdx.take n, (b, n), l.zipIdx.drop (n + 1), ?_, hf, ?_⟩
    · have hentry : l.zipIdx[n] = (b, n) := by simp [hget]
      rw [← hentry, ← List.drop_eq_getElem_cons hlt', List.take_append_drop]
    · rintro ⟨b', m⟩ hmem
      obtain ⟨i, hi, heq⟩ := List.mem_take_iff_getElem.1 hmem
      rw [List.getElem_zipIdx, Nat.zero_add] at heq
      obtain ⟨rfl, rfl⟩ := Prod.mk.inj heq
      exact hrest i (Nat.lt_of_lt_of_le hi (Nat.min_le_left _ _)) _ (List.getElem?_eq_getElem _)

/-- The first error found in a survey is about the first nonterminal that is needed and has no
production. -/
theorem Settles.firstError_eq_some_iff (h : Settles d d' start) {e : GrammarError} :
    (Finding.firstError (d'.survey start)).value = some e ↔
      ∃ n name, e = .noProductions name ∧ d.Barren start n name ∧
        ∀ m < n, ∀ name', ¬ d.Barren start m name' := by
  have hfinding : ∀ {n : Nat} {nt : Nonterminal} (e), d.nts[n]? = some nt →
      ((if n ∉ d'.reachable start then some (Finding.unreachable nt.name)
        else if nt.prods.isEmpty then some (Finding.barren nt.name) else none).bind errorOf = some e ↔
      e = .noProductions nt.name ∧ d.Barren start n nt.name) := by
    rintro n ⟨name, prods⟩ e hn
    rw [Barren, hn]
    by_cases hneeded : d.Needed start n
    · have hreached := h.mem_reachable_iff.2 hneeded
      cases prods <;> simp [hneeded, hreached, errorOf, eq_comm]
    · have hreached := mt h.mem_reachable_iff.1 hneeded
      simp [hneeded, hreached, errorOf]
  rw [survey, firstError_filterMap, findSome?_zipIdx_eq_some_iff]
  simp only [Array.getElem?_toList, h.nts]
  constructor
  · rintro ⟨n, nt, hn, hf, hrest⟩
    obtain ⟨rfl, hbarren⟩ := (hfinding e hn).1 hf
    refine ⟨n, nt.name, rfl, hbarren, fun m hm name' hbarren' => ?_⟩
    have := (hfinding _ hbarren'.2).2 ⟨rfl, hbarren'⟩
    rw [hrest m hm _ hbarren'.2] at this
    exact absurd this (by simp)
  · rintro ⟨n, name, rfl, hbarren, hrest⟩
    refine ⟨n, _, hbarren.2, (hfinding _ hbarren.2).2 ⟨rfl, hbarren⟩, fun m hm nt' hnt' => ?_⟩
    rw [Option.eq_none_iff_forall_ne_some]
    intro e he
    exact hrest m hm _ ((hfinding e hnt').1 he).2

/-- What a draft needs to be a grammar. -/
structure Buildable (d : Draft) (start : Nat) : Prop extends SymbolsDeclared d start where
  productive : ∀ {n : Nat} {nt : Nonterminal}, d.Needed start n → d.nts[n]? = some nt → nt.prods ≠ []

/-! ### Groups of productions -/

/-- The last of the terminals that is a member of a group is a member of this one. -/
def LastGroup (d : Draft) (symbols : List Symbol) (group : Nat) : Prop :=
  ∃ before t after, symbols = before ++ .terminal t :: after ∧ (group, t) ∈ d.members ∧
    ∀ t', .terminal t' ∈ after → ∀ group', (group', t') ∉ d.members

theorem Settles.findSome?_symbolGroup (hd : d.Ungrouped) (h : Settles d d' start) {symbols : List Symbol}
    {group : Nat} : symbols.reverse.findSome? (symbolGroup d'.terminals) = some group ↔
      d.LastGroup symbols group := by
  have hsome : ∀ {x group}, symbolGroup d'.terminals x = some group ↔
      ∃ t, x = .terminal t ∧ (group, t) ∈ d.members := by
    rintro (n | t) group
    · simp [symbolGroup]
    · simp [symbolGroup, h.prec_eq_some_iff hd]
  have hnone : ∀ {x}, symbolGroup d'.terminals x = none ↔
      ∀ t, x = .terminal t → ∀ group, (group, t) ∉ d.members := by
    intro x
    rw [Option.eq_none_iff_forall_ne_some]
    simp only [ne_eq, hsome, not_exists, not_and]
    exact ⟨fun h t ht group => h group t ht, fun h group t ht => h t ht group⟩
  rw [List.findSome?_eq_some_iff, LastGroup]
  constructor
  · rintro ⟨l₁, x, l₂, hsplit, hx, hrest⟩
    obtain ⟨t, rfl, ht⟩ := hsome.1 hx
    refine ⟨l₂.reverse, t, l₁.reverse, ?_, ht, fun t' ht' => ?_⟩
    · rw [← List.reverse_reverse symbols, hsplit]
      simp
    · exact hnone.1 (hrest _ (List.mem_reverse.1 ht')) t' rfl
  · rintro ⟨before, t, after, rfl, ht, hrest⟩
    refine ⟨after.reverse, .terminal t, before.reverse, by simp, hsome.2 ⟨t, rfl, ht⟩, fun x hx => ?_⟩
    refine hnone.2 ?_
    rintro t' rfl
    exact hrest t' (List.mem_reverse.1 hx)

/-- The group of a production of the grammar is the one it was given, or else that of the last of its
terminals that has one. -/
theorem Settles.prec_eq_some_iff_lastGroup (hd : d.Ungrouped) (h : Settles d d' start) {p : Nat}
    {prod : Production} (hp : d.prods[p]? = some prod) : ∃ prod', d'.prods[p]? = some prod' ∧
      prod'.nt = prod.nt ∧ prod'.symbols = prod.symbols ∧ ∀ group, prod'.prec = some group ↔
        prod.prec = some group ∨ prod.prec = none ∧ d.LastGroup prod.symbols group := by
  obtain ⟨prod', hp', hsettled⟩ := h.settled hp
  obtain ⟨hnt, hsymbols, -⟩ := settleProd_spec hsettled
  refine ⟨prod', hp', hnt, hsymbols, fun group => ?_⟩
  rw [settleProd] at hsettled
  split at hsettled
  · obtain rfl := Except.ok.inj hsettled
    rw [Option.or_eq_some_iff, h.findSome?_symbolGroup hd]
  · exact absurd hsettled (by simp)

/-! ### Acceptance -/

theorem exists_of_mapM_eq_error {β γ ε : Type} {f : β → Except ε γ} {l : List β} {e : ε}
    (h : l.mapM f = .error e) : ∃ b ∈ l, f b = .error e := by
  induction l with
  | nil => exact absurd h (by simp [pure, Except.pure])
  | cons b l ih =>
    rw [List.mapM_cons] at h
    cases hb : f b with
    | error e' =>
      rw [hb] at h
      obtain rfl : e' = e := Except.error.inj h
      exact ⟨b, List.mem_cons_self, hb⟩
    | ok c =>
      cases hl : l.mapM f with
      | error e' =>
        rw [hb, hl] at h
        obtain rfl : e' = e := Except.error.inj h
        obtain ⟨b', hb', heq⟩ := ih hl
        exact ⟨b', List.mem_cons_of_mem _ hb', heq⟩
      | ok cs =>
        rw [hb, hl] at h
        exact absurd h (by simp [bind, Except.bind, pure, Except.pure])

theorem assignGroups_ne_noProductions {members : List (Nat × Nat)} {ts : Array Terminal}
    {name : String} : assignGroups members ts ≠ .error (.noProductions name) := by
  induction members generalizing ts with
  | nil => simp [assignGroups]
  | cons m members ih =>
    rw [assignGroups]
    split
    · simp
    · split
      · simp
      · exact ih

/-- A draft that is not settled mentions something that is unknown or has a member twice. -/
theorem settle_ne_noProductions {name : String} : d.settle start ≠ .error (.noProductions name) := by
  intro h
  rw [settle] at h
  by_cases hstart : d.nts.size ≤ start
  · rw [if_pos hstart] at h
    exact absurd h (by simp [throw, throwThe, MonadExceptOf.throw, bind, Except.bind])
  rw [if_neg hstart] at h
  cases hts : assignGroups d.members d.terminals with
  | error e =>
    rw [hts] at h
    obtain rfl : e = .noProductions name := Except.error.inj h
    exact assignGroups_ne_noProductions hts
  | ok ts =>
    cases hprods : d.prods.toList.mapM (settleProd ts d.nts.size) with
    | error e =>
      simp only [hts, bind, Except.bind, hprods] at h
      obtain rfl : e = .noProductions name := Except.error.inj h
      obtain ⟨prod, -, hprod⟩ := exists_of_mapM_eq_error hprods
      rw [settleProd] at hprod
      split at hprod <;> exact absurd hprod (by simp)
    | ok prods =>
      simp only [hts, bind, Except.bind, hprods] at h
      exact absurd h (by simp [pure, Except.pure])

/-- What is made of a settled draft hangs on the survey of its nonterminals. -/
theorem build_of_settle (hsettle : d.settle start = .ok d') :
    d.build start = match (Finding.firstError (d'.survey start)).value with
      | some e => .error e
      | none => .ok (d'.finish start) := by
  simp only [build, construct, hsettle]
  cases (Finding.firstError (d'.survey start)).value <;> rfl

/-- The nonterminal that is reported is the first one that is needed and has no production. -/
theorem Ungrouped.build_eq_noProductions_iff (hd : d.Ungrouped) {name : String} :
    d.build start = .error (.noProductions name) ↔ d.SymbolsDeclared start ∧
      ∃ n, d.Barren start n name ∧ ∀ m < n, ∀ name', ¬ d.Barren start m name' := by
  cases hsettle : d.settle start with
  | error e =>
    refine iff_of_false ?_ ?_
    · simp only [build, construct, hsettle]
      rintro ⟨rfl⟩
      exact settle_ne_noProductions hsettle
    · rintro ⟨hsymbols, -⟩
      obtain ⟨d', hd'⟩ := hd.exists_settle_iff.2 hsymbols
      rw [hsettle] at hd'
      exact absurd hd' (by simp)
  | ok d' =>
    have hd' := settles_of_settle hsettle
    have hfirst : d.build start = .error (.noProductions name) ↔
        (Finding.firstError (d'.survey start)).value = some (.noProductions name) := by
      rw [build_of_settle hsettle]
      cases (Finding.firstError (d'.survey start)).value <;> simp
    rw [hfirst, hd'.firstError_eq_some_iff, and_iff_right hd'.symbolsDeclared]
    refine exists_congr fun n => ⟨?_, fun h => ⟨name, rfl, h⟩⟩
    rintro ⟨name', heq, h⟩
    obtain rfl := GrammarError.noProductions.inj heq
    exact h

/-- A draft makes a grammar exactly if it has what it needs to be one. -/
theorem Ungrouped.exists_build_iff (hd : d.Ungrouped) :
    (∃ g, d.build start = .ok g) ↔ d.Buildable start := by
  cases hsettle : d.settle start with
  | error e =>
    refine iff_of_false ?_ fun h => ?_
    · rintro ⟨g, hg⟩
      simp only [build, construct, hsettle] at hg
      exact absurd hg (by simp)
    · obtain ⟨d', hd'⟩ := hd.exists_settle_iff.2 h.toSymbolsDeclared
      rw [hsettle] at hd'
      exact absurd hd' (by simp)
  | ok d' =>
    have hd' := settles_of_settle hsettle
    have hnone : (∃ g, d.build start = .ok g) ↔ (Finding.firstError (d'.survey start)).value = none := by
      rw [build_of_settle hsettle]
      cases (Finding.firstError (d'.survey start)).value <;> simp
    rw [hnone]
    constructor
    · intro h
      refine { toSymbolsDeclared := hd'.symbolsDeclared, productive := fun {n nt} hneeded hn hnil => ?_ }
      -- of the nonterminals that are needed and have no production, the first one would be reported
      classical
      have hex : ∃ n name, d.Barren start n name := ⟨n, nt.name, hneeded, by rw [hn, ← hnil]⟩
      obtain ⟨name, hbarren⟩ := Nat.find_spec hex
      have hsome := hd'.firstError_eq_some_iff.2 ⟨_, name, rfl, hbarren,
        fun m hm name' hbarren' => Nat.find_min hex hm ⟨name', hbarren'⟩⟩
      rw [h] at hsome
      exact absurd hsome (by simp)
    · intro h
      rw [Option.eq_none_iff_forall_ne_some]
      intro e he
      obtain ⟨n, name, -, ⟨hneeded, hn⟩, -⟩ := hd'.firstError_eq_some_iff.1 he
      exact h.productive hneeded hn rfl

/-- A grammar is made exactly of the drafts that are buildable. That a nonterminal has no productions is
reported if it is the first one that is needed and has none, and only then. In the grammar every production
has the group that it was given, or else that of the last of its terminals that has one. -/
theorem build_accepts (calls : List Call) (start : Nat) :
    ((∃ g, (ofCalls calls).build start = .ok g) ↔ (ofCalls calls).Buildable start) ∧
    (∀ name, (ofCalls calls).build start = .error (.noProductions name) ↔
      (ofCalls calls).SymbolsDeclared start ∧ ∃ n, (ofCalls calls).Barren start n name ∧
        ∀ m < n, ∀ name', ¬ (ofCalls calls).Barren start m name') ∧
    ∀ g, (ofCalls calls).build start = .ok g → g.prods.size = (ofCalls calls).prods.size ∧
      ∀ (p : Nat) (prod : Production), (ofCalls calls).prods[p]? = some prod →
        ∃ prod', g.prods[p]? = some prod' ∧ prod'.nt = prod.nt ∧ prod'.symbols = prod.symbols ∧
          ∀ group, prod'.prec = some group ↔ prod.prec = some group ∨
            prod.prec = none ∧ (ofCalls calls).LastGroup prod.symbols group := by
  have hd := (declared_ofCalls calls).ungrouped
  refine ⟨hd.exists_build_iff, fun name => hd.build_eq_noProductions_iff, fun g hg => ?_⟩
  obtain ⟨d', hd', rfl⟩ := exists_settles_of_build hg
  exact ⟨hd'.size_prods, fun p prod hp => hd'.prec_eq_some_iff_lastGroup hd hp⟩

/-- Declarations of `S = x y T | x` and `T = y x z`, where `x` and `y` have groups and the second production
of `S` is given that of `y`. `U` is not needed from `S`, and it has no production. -/
def layered : List Call :=
  [.terminal "x" (.char 'x') false, .terminal "y" (.char 'y') false, .terminal "z" (.char 'z') false,
    .nonterminal "S", .nonterminal "T", .nonterminal "U", .precGroup .left [0], .precGroup .right [1],
    .production 0 [.terminal 0, .terminal 1, .nonterminal 1], .production 0 [.terminal 0], .setPrec 1 1,
    .production 1 [.terminal 1, .terminal 0, .terminal 2]]

theorem build_accepts_layered : (ofCalls layered).Buildable 0 ∧
    (∃ n, (ofCalls layered).Barren 2 n "U" ∧ ∀ m < n, ∀ name, ¬ (ofCalls layered).Barren 2 m name) ∧
    ∃ g, (ofCalls layered).build 0 = .ok g ∧ g.prods.toList.map Production.prec = [some 1, some 1, some 0] ∧
      (ofCalls layered).LastGroup [.terminal 1, .terminal 0, .terminal 2] 0 := by
  obtain ⟨g, hg, hprec⟩ := exists_ok (x := (ofCalls layered).build 0)
    (P := fun g => g.prods.toList.map Production.prec = [some 1, some 1, some 0]) (by decide +kernel)
  have hU : (ofCalls layered).build 2 = .error (.noProductions "U") := rfl
  obtain ⟨haccepts, -, hgroups⟩ := build_accepts layered 0
  obtain ⟨-, hbarren, -⟩ := build_accepts layered 2
  refine ⟨haccepts.1 ⟨g, hg⟩, ((hbarren "U").1 hU).2, g, hg, hprec, ?_⟩
  obtain ⟨-, hprods⟩ := hgroups g hg
  obtain ⟨prod', hprod', -, -, hgroup⟩ :=
    hprods 2 ⟨1, [.terminal 1, .terminal 0, .terminal 2], none⟩ (by decide +kernel)
  have hprec' : prod'.prec = some 0 := by
    have := congrArg (·[2]?) hprec
    simpa [hprod'] using this
  exact ((hgroup 0).1 hprec').elim (fun h => absurd h (by simp)) (fun h => h.2)

end Draft

end ShiftReduce
