import Mathlib.Order.Lattice.Nat
import ShiftReduce.Proofs.Grammar.Operators
import ShiftReduce.Proofs.Lalr.Reordering

/-!
# Actions in closed form

The candidates for the action of a state on a terminal are the shift to the state that the terminal leads
to, the productions that have been read to their end there and may be followed by the terminal
(`Tables.completed`), and to accept. They are what the items of the state offer
(`Tables.mem_offers_iff`).

The items make their offers one after the other, some of them more than once, and each is held against
what the cell has kept. If the tables are built, nothing of this can be seen in the action: it is what
`Cell.Decides` says about the candidates (`Tables.action_decided`), and this is one action only
(`Cell.Decides.unique`).
-/

namespace ShiftReduce

/-! ### Levels -/

namespace Grammar

variable {g : Grammar} {R : Set Nat} {M N p q : Nat}

/-- The level of the group of a production, if it has one. -/
def level (g : Grammar) (p : Nat) : Option Nat := (g.prodPrec p).map PrecGroup.level

/-- The levels of some productions. -/
def levels (g : Grammar) (R : Set Nat) : Set Nat := {l | ∃ p ∈ R, g.level p = some l}

/-- All of the productions have groups, and `M` is the highest of their levels. -/
structure TopLevel (g : Grammar) (R : Set Nat) (M : Nat) : Prop where
  grouped : ∀ p ∈ R, ∃ l, g.level p = some l
  greatest : IsGreatest (g.levels R) M

/-- The production `p` is the only one of the productions that is of level `M`. -/
def Sole (g : Grammar) (R : Set Nat) (M p : Nat) : Prop := ∀ q, q ∈ R ∧ g.level q = some M ↔ q = p

theorem level_eq_some {group : PrecGroup} (h : g.prodPrec p = some group) :
    g.level p = some group.level := by
  rw [level, h, Option.map_some]

theorem TopLevel.unique (h : g.TopLevel R M) (h' : g.TopLevel R N) : M = N :=
  h.greatest.unique h'.greatest

theorem Sole.unique (h : g.Sole R M p) (h' : g.Sole R M q) : p = q := (h' p).1 ((h p).2 rfl)

/-- Productions whose levels are bounded have a highest level. -/
theorem exists_topLevel (hne : R.Nonempty)
    (hbound : ∀ p ∈ R, ∃ l, g.level p = some l ∧ l ≤ N) : ∃ M, g.TopLevel R M := by
  have hlevels : (g.levels R).Nonempty := by
    obtain ⟨p, hp⟩ := hne
    obtain ⟨l, hl, -⟩ := hbound p hp
    exact ⟨l, p, hp, hl⟩
  have hbdd : BddAbove (g.levels R) := by
    refine ⟨N, ?_⟩
    rintro l ⟨p, hp, hl⟩
    obtain ⟨l', hl', hle⟩ := hbound p hp
    obtain rfl : l = l' := Option.some.inj (hl.symm.trans hl')
    exact hle
  refine ⟨sSup (g.levels R), fun p hp => ?_, Nat.sSup_mem hlevels hbdd, fun l hl => le_csSup hbdd hl⟩
  obtain ⟨l, hl, -⟩ := hbound p hp
  exact ⟨l, hl⟩

end Grammar

/-! ### The closed form -/

/-- The offers to shift to the given state, to reduce by the given productions and to accept. -/
def Offer.Among (next? : Option Nat) (R : Set Nat) (accepts : Prop) : Offer → Prop
  | .shift next => next? = some next
  | .reduce p => p ∈ R
  | .accept => accepts

namespace Cell

variable {g : Grammar} {a next M p : Nat} {next? : Option Nat} {R : Set Nat} {accepts : Prop}
  {group : PrecGroup} {action action' : Action} {cell : Cell}

/-- What comes of a terminal of the given group and productions of which `M` is the highest level. The
higher level wins, and on the same level it depends on how the group associates. -/
structure Outcome (g : Grammar) (next : Nat) (R : Set Nat) (group : PrecGroup) (M : Nat)
    (action : Action) : Prop where
  lower : M < group.level → action = .shift next
  higher : group.level < M → ∃ p, g.Sole R M p ∧ action = .reduce p
  left : M = group.level → group.assoc = .left → ∃ p, g.Sole R M p ∧ action = .reduce p
  right : M = group.level → group.assoc = .right → action = .shift next
  none : M = group.level → group.assoc = .none → action = .error

/-- The action that the candidates decide on: the state to shift to, if there is one, the productions to
reduce by, and whether to accept. -/
structure Decides (g : Grammar) (a : Nat) (next? : Option Nat) (R : Set Nat) (accepts : Prop)
    (action : Action) : Prop where
  accept : accepts → action = .accept ∧ next? = none ∧ R = ∅
  error : ¬ accepts → next? = none → R = ∅ → action = .error
  shift : ∀ {next}, next? = some next → R = ∅ → action = .shift next
  reduce : ∀ {p}, next? = none → R = {p} → action = .reduce p
  rivals : next? = none → R.Nontrivial →
    ∃ M p, g.TopLevel R M ∧ g.Sole R M p ∧ action = .reduce p
  contest : ∀ {next}, next? = some next → R.Nonempty →
    ∃ M group, g.TopLevel R M ∧ g.terminalPrec a = some group ∧ Outcome g next R group M action

theorem Outcome.unique (h : Outcome g next R group M action) (h' : Outcome g next R group M action') :
    action = action' := by
  have hsole : (∃ p, g.Sole R M p ∧ action = .reduce p) → (∃ p, g.Sole R M p ∧ action' = .reduce p) →
      action = action' := by
    rintro ⟨p, hp, rfl⟩ ⟨q, hq, rfl⟩
    rw [hp.unique hq]
  rcases Nat.lt_trichotomy M group.level with hlt | heq | hgt
  · rw [h.lower hlt, h'.lower hlt]
  · cases hassoc : group.assoc with
    | left => exact hsole (h.left heq hassoc) (h'.left heq hassoc)
    | right => rw [h.right heq hassoc, h'.right heq hassoc]
    | none => rw [h.none heq hassoc, h'.none heq hassoc]
  · exact hsole (h.higher hgt) (h'.higher hgt)

/-- The candidates decide on one action. -/
theorem Decides.unique (h : Decides g a next? R accepts action)
    (h' : Decides g a next? R accepts action') : action = action' := by
  by_cases haccepts : accepts
  · rw [(h.accept haccepts).1, (h'.accept haccepts).1]
  cases hnext : next? with
  | none =>
    rcases R.eq_empty_or_nonempty with hR | ⟨p, hp⟩
    · rw [h.error haccepts hnext hR, h'.error haccepts hnext hR]
    rcases Set.eq_singleton_or_nontrivial hp with hR | hR
    · rw [h.reduce hnext hR, h'.reduce hnext hR]
    · obtain ⟨M, p, hM, hp, rfl⟩ := h.rivals hnext hR
      obtain ⟨N, q, hN, hq, rfl⟩ := h'.rivals hnext hR
      obtain rfl := hM.unique hN
      rw [hp.unique hq]
  | some next =>
    rcases R.eq_empty_or_nonempty with hR | hR
    · rw [h.shift hnext hR, h'.shift hnext hR]
    · obtain ⟨M, group, hM, hgroup, hout⟩ := h.contest hnext hR
      obtain ⟨N, group', hN, hgroup', hout'⟩ := h'.contest hnext hR
      obtain rfl := hM.unique hN
      obtain rfl : group = group' := Option.some.inj (hgroup.symm.trans hgroup')
      exact hout.unique hout'

/-! ### Settled cells -/

/-- What is made of the shift and of the productions of the highest level. -/
def Follows (g : Grammar) (next : Nat) (R : Set Nat) (M : Nat) (action : Action) : Preference → Prop
  | .shift => action = .shift next
  | .reduce => ∃ p, g.Sole R M p ∧ action = .reduce p
  | .neither => action = .error

theorem Follows.outcome (h : Follows g next R M action (group.choice M)) :
    Outcome g next R group M action where
  lower hlt := by simpa [Follows, PrecGroup.choice, hlt, hlt.ne] using h
  higher hgt := by simpa [Follows, PrecGroup.choice, hgt.ne', hgt.not_gt] using h
  left heq hassoc := by simpa [Follows, PrecGroup.choice, heq, hassoc] using h
  right heq hassoc := by simpa [Follows, PrecGroup.choice, heq, hassoc] using h
  none heq hassoc := by simpa [Follows, PrecGroup.choice, heq, hassoc] using h

/-- The foremost production is the only one of its level, which is the highest. -/
theorem Foremost.topLevel (h : Foremost g (Offer.Among next? R accepts) p)
    (hgroup : g.prodPrec p = some group) :
    g.TopLevel R group.level ∧ g.Sole R group.level p := by
  have hp : p ∈ R := h.1
  have hother : ∀ q ∈ R, q ≠ p → ∃ l, g.level q = some l ∧ l < group.level := by
    intro q hq hne
    obtain ⟨b, c, hb, hc, hlt⟩ := h.2 q hq hne
    obtain rfl : group = b := Option.some.inj (hgroup.symm.trans hb)
    exact ⟨_, Grammar.level_eq_some hc, hlt⟩
  refine ⟨⟨fun q hq => ?_, ⟨p, hp, Grammar.level_eq_some hgroup⟩, ?_⟩, fun q => ⟨?_, ?_⟩⟩
  · by_cases hqp : q = p
    · exact ⟨_, hqp ▸ Grammar.level_eq_some hgroup⟩
    · obtain ⟨l, hl, -⟩ := hother q hq hqp
      exact ⟨l, hl⟩
  · rintro l ⟨q, hq, hl⟩
    by_cases hqp : q = p
    · rw [hqp, Grammar.level_eq_some hgroup] at hl
      exact (Option.some.inj hl).ge
    · obtain ⟨l', hl', hlt⟩ := hother q hq hqp
      obtain rfl : l = l' := Option.some.inj (hl.symm.trans hl')
      exact hlt.le
  · rintro ⟨hq, hl⟩
    by_contra hqp
    obtain ⟨l, hl', hlt⟩ := hother q hq hqp
    obtain rfl : group.level = l := Option.some.inj (hl.symm.trans hl')
    exact Nat.lt_irrefl _ hlt
  · rintro rfl
    exact ⟨hp, Grammar.level_eq_some hgroup⟩

/-- The foremost production against the shift. -/
theorem Foremost.contest (h : Foremost g (Offer.Among next? R accepts) p) {choice : Preference}
    (hchoice : preference g p a = some choice) (hne : choice ≠ .shift)
    (haction : action = (weigh next p choice).action) :
    ∃ M group, g.TopLevel R M ∧ g.terminalPrec a = some group ∧ Outcome g next R group M action := by
  obtain ⟨b, group, hb, hgroup, rfl⟩ := Grammar.preference_eq_some_iff.1 hchoice
  obtain ⟨htop, hsole⟩ := h.topLevel hb
  refine ⟨b.level, group, htop, hgroup, Follows.outcome ?_⟩
  rw [haction]
  cases hcase : group.choice b.level with
  | shift => exact absurd hcase hne
  | reduce => exact ⟨p, hsole, rfl⟩
  | neither => rfl

/-- The shift against productions that all give way to it. -/
theorem contest_shift (hne : R.Nonempty) (hpref : ∀ p ∈ R, preference g p a = some .shift) :
    ∃ M group, g.TopLevel R M ∧ g.terminalPrec a = some group ∧
      Outcome g next R group M (.shift next) := by
  have hlevel : ∀ {p}, p ∈ R → ∃ b group, g.prodPrec p = some b ∧ g.terminalPrec a = some group ∧
      group.choice b.level = .shift := fun hp => Grammar.preference_eq_some_iff.1 (hpref _ hp)
  obtain ⟨q, hq⟩ := hne
  obtain ⟨-, group, -, hgroup, -⟩ := hlevel hq
  have hshift : ∀ {p}, p ∈ R → ∃ l, g.level p = some l ∧ group.choice l = .shift := by
    intro p hp
    obtain ⟨b, group', hb, hgroup', hchoice⟩ := hlevel hp
    obtain rfl : group = group' := Option.some.inj (hgroup.symm.trans hgroup')
    exact ⟨_, Grammar.level_eq_some hb, hchoice⟩
  obtain ⟨M, hM⟩ := Grammar.exists_topLevel ⟨q, hq⟩ (N := group.level) fun p hp => by
    obtain ⟨l, hl, hchoice⟩ := hshift hp
    exact ⟨l, hl, PrecGroup.le_of_choice_eq_shift hchoice⟩
  -- the highest level is that of some production, which gives way to the shift
  obtain ⟨p, hp, hMp⟩ := hM.greatest.1
  obtain ⟨l, hl, hchoice⟩ := hshift hp
  obtain rfl : M = l := Option.some.inj (hMp.symm.trans hl)
  refine ⟨M, group, hM, hgroup, Follows.outcome ?_⟩
  rw [hchoice]
  rfl

/-- A settled cell holds the action that the candidates decide on. -/
theorem Settled.decides (h : cell.Settled g a (Offer.Among next? R accepts)) :
    Decides g a next? R accepts cell.action := by
  cases cell with
  | vacant =>
    have hnext : ∀ next, next? ≠ some next := fun next => h (.shift next)
    have hR : ∀ p, p ∉ R := fun p => h (.reduce p)
    exact
      { accept := fun haccepts => absurd haccepts (h .accept), error := fun _ _ _ => rfl
        shift := fun heq => absurd heq (hnext _)
        reduce := fun {p} _ heq => absurd (heq ▸ Set.mem_singleton p) (hR p)
        rivals := fun _ hR' => absurd hR'.nonempty.some_mem (hR _)
        contest := fun heq => absurd heq (hnext _) }
  | shift old =>
    obtain ⟨hnext, haccepts, hpref⟩ := h
    replace hnext : next? = some old := hnext
    have hnone : next? ≠ none := by simp [hnext]
    refine
      { accept := fun haccepts' => absurd haccepts' haccepts
        error := fun _ heq => absurd heq hnone
        shift := fun heq _ => by rw [Cell.action, Option.some.inj (hnext.symm.trans heq)]
        reduce := fun heq => absurd heq hnone, rivals := fun heq => absurd heq hnone
        contest := fun {next} heq hne => ?_ }
    obtain rfl : old = next := Option.some.inj (hnext.symm.trans heq)
    exact contest_shift hne hpref
  | reduce p =>
    obtain ⟨hp, haccepts, hpref⟩ := h
    have hmem : p ∈ R := hp.1
    refine
      { accept := fun haccepts' => absurd haccepts' haccepts
        error := fun _ _ hR => absurd hmem (hR ▸ Set.notMem_empty p)
        shift := fun _ hR => absurd hmem (hR ▸ Set.notMem_empty p)
        reduce := fun {q} _ hR => ?_, rivals := fun _ hR => ?_
        contest := fun heq _ => hp.contest (hpref _ heq) (by simp) rfl }
    · obtain rfl : p = q := by simpa [hR] using hmem
      rfl
    · obtain ⟨q, hq, hne⟩ := hR.exists_ne p
      obtain ⟨b, -, hb, -, -⟩ := hp.2 q hq hne
      obtain ⟨htop, hsole⟩ := hp.topLevel hb
      exact ⟨_, p, htop, hsole, rfl⟩
  | accept =>
    have hnext : ∀ next, next? ≠ some next := fun next heq => absurd (h.2 (.shift next) heq) (by simp)
    have hR : ∀ p, p ∉ R := fun p hp => absurd (h.2 (.reduce p) hp) (by simp)
    exact
      { accept := fun _ => ⟨rfl, Option.eq_none_iff_forall_ne_some.2 hnext,
          Set.eq_empty_iff_forall_notMem.2 hR⟩
        error := fun haccepts => absurd h.1 haccepts, shift := fun heq => absurd heq (hnext _)
        reduce := fun {p} _ heq => absurd (heq ▸ Set.mem_singleton p) (hR p)
        rivals := fun _ hR' => absurd hR'.nonempty.some_mem (hR _)
        contest := fun heq => absurd heq (hnext _) }
  | emptied old p =>
    obtain ⟨hnext, hp, haccepts, hpref⟩ := h
    replace hnext : next? = some old := hnext
    have hnone : next? ≠ none := by simp [hnext]
    exact
      { accept := fun haccepts' => absurd haccepts' haccepts
        error := fun _ heq => absurd heq hnone
        shift := fun _ hR => absurd hp.1 (hR ▸ Set.notMem_empty p)
        reduce := fun heq => absurd heq hnone, rivals := fun heq => absurd heq hnone
        contest := fun _ _ => hp.contest hpref (by simp) rfl }

end Cell

/-! ### Candidates -/

/-- The new production has no group, so precedence is the same in the augmented grammar. -/
theorem Cell.Settled.of_augment {g : Grammar} {a : Nat} {made : Offer → Prop} {cell : Cell}
    (h : cell.Settled g.augment a made) : cell.Settled g a made := by
  have hprod : g.augment.prodPrec = g.prodPrec := funext g.prodPrec_augment
  have hpref : preference g.augment = preference g := by
    funext p t
    exact g.preference_augment p t
  cases cell <;> simpa only [Settled, Foremost, Grammar.Outranks, hprod, hpref] using h

namespace Tables

variable {g : Grammar} {t : Tables} {i a : Nat} {s : State} {o : Offer}

/-- The productions that have been read to their end in a state and that the terminal `a` may follow. -/
def completed (g : Grammar) (s : State) (a : Nat) : Set Nat :=
  {p | ∃ item ∈ s.items g, item.core = ⟨p, (g.rhs p).length⟩ ∧ a ∈ item.look}

/-- Whether `a` is the end of the input and all but it has been read of the accepting production. -/
def Accepting (g : Grammar) (s : State) (a : Nat) : Prop :=
  a = g.eof ∧ ∃ item ∈ s.items g, item.core = ⟨g.acceptProd, 1⟩

/-- What may be done in a state on a terminal. -/
def Candidate (g : Grammar) (s : State) (a : Nat) : Offer → Prop :=
  Offer.Among (s.move? (.terminal a)) (completed g s a) (Accepting g s a)

/-- Where a symbol leads on, an item of the state calls for it. -/
theorem exists_advance (hg : g.WellFormed) (hs : (statesOf g)[i]? = some s) {x : Symbol} {j : Nat}
    (hmove : s.move? x = some j) : ∃ item ∈ s.items g.augment, item.core.next? g.augment = some x ∧
      Collection.accepts g.augment item.core = false := by
  have hfin := finished_statesOf hg
  obtain ⟨s', hs', hcovers⟩ :=
    hfin.holds_of_move? (Grammar.isAugmented_augment hg).toInRange hs hmove
  have hne : Collection.advance g.augment (s.items g.augment) x ≠ [] := by
    rw [← Collection.coreSet_nonempty, ← hcovers.coreSet, Collection.coreSet_nonempty]
    exact (hfin.genuine hs').ne_nil
  obtain ⟨_, hmem⟩ := List.exists_mem_of_ne_nil _ hne
  obtain ⟨item, hitem, hnext, haccepts, -⟩ := Collection.mem_advance.1 hmem
  exact ⟨item, hitem, hnext, haccepts⟩

/-- The items of a state offer its candidates. -/
theorem mem_offers_iff (hg : g.WellFormed) (hs : (statesOf g)[i]? = some s) :
    (a, o) ∈ offers g.augment s ↔ Candidate g.augment s a o := by
  have hG := Grammar.isAugmented_augment hg
  obtain ⟨γ, hγ⟩ := exists_walk_of_state hg hs
  rw [mem_offers]
  constructor
  · rintro ⟨item, hitem, ho⟩
    rcases mem_offersOf.1 ho with ⟨haccepts, rfl, rfl⟩ | ⟨-, ⟨j, -, hmove, rfl⟩ | ⟨hnext, ha, rfl⟩⟩
    · obtain ⟨hprod, hdot⟩ := Canonical.accepts_iff.1 haccepts
      exact ⟨rfl, item, hitem, by rw [← hprod, ← hdot]⟩
    · exact hmove
    · have hclosure := (closure_iff_exists_item hg hγ hs).2 ⟨item, hitem, rfl⟩
      exact ⟨item, hitem, by rw [← Canonical.dot_eq_of_next?_none hclosure hnext], ha⟩
  · cases o with
    | shift j =>
      intro hmove
      obtain ⟨item, hitem, hnext, haccepts⟩ := exists_advance hg hs hmove
      exact ⟨item, hitem, mem_offersOf.2 (Or.inr ⟨haccepts, Or.inl ⟨j, hnext, hmove, rfl⟩⟩)⟩
    | reduce p =>
      rintro ⟨item, hitem, hcore, ha⟩
      have hnext : item.core.next? g.augment = none := by
        rw [hcore, Core.next?, Core.rest, List.drop_length, List.head?_nil]
      have haccepts : Collection.accepts g.augment item.core = false := by
        by_contra haccepts
        rw [Bool.not_eq_false] at haccepts
        exact absurd (hnext.symm.trans (Canonical.next?_of_accepts hG haccepts)) (by simp)
      refine ⟨item, hitem, mem_offersOf.2 (Or.inr ⟨haccepts, Or.inr ⟨hnext, ha, ?_⟩⟩)⟩
      rw [hcore]
    | accept =>
      rintro ⟨rfl, item, hitem, hcore⟩
      exact ⟨item, hitem, mem_offersOf.2 (Or.inl ⟨Canonical.accepts_iff.2 (by simp [hcore]), rfl, rfl⟩)⟩

/-- If the tables of a well-formed grammar are built, every action is the one that its candidates decide on.
All grammars that a draft makes are well-formed (`Draft.Consistent.wellFormed`). -/
theorem action_decided (hg : g.WellFormed) (ht : build g = .ok t) (hs : (statesOf g)[i]? = some s)
    (a : Nat) : Cell.Decides g a (s.move? (.terminal a)) (completed g.augment s a)
      (Accepting g.augment s a) (t.actionAt i a) := by
  obtain ⟨cells, hcells, hrow⟩ := (made_of_build ht).rows hs
  have hsettled := hrow.settled (regular_offers hg hs) a
  simp only [mem_offers_iff hg hs] at hsettled
  rw [actionAt_of_cells hcells]
  exact (Cell.Settled.of_augment hsettled).decides

/-- After `E + E` the addition can be reduced and `*` can be shifted, and `*` is of the higher level. -/
theorem action_decided_sums : ∃ (g : Grammar) (t : Tables) (s : State), g.WellFormed ∧
    build g = .ok t ∧ (statesOf g)[5]? = some s ∧ s.move? (.terminal 2) = some 4 ∧
    g.level 0 = some 0 ∧ (g.terminalPrec 2).map PrecGroup.level = some 1 ∧
    t.actionAt 5 2 = .shift 4 ∧ Cell.Decides g 2 (s.move? (.terminal 2)) (completed g.augment s 2)
      (Accepting g.augment s 2) (t.actionAt 5 2) := by
  obtain ⟨g, hbuild, hlevel, hgroup, hmove, haction⟩ := exists_ok
    (x := (Draft.sums.produceAll Production.sums).build 0)
    (P := fun g => g.level 0 = some 0 ∧ (g.terminalPrec 2).map PrecGroup.level = some 1 ∧
      ((statesOf g)[5]?.bind fun s => s.move? (.terminal 2)) = some 4 ∧
      ((build g).toOption.map fun t => t.actionAt 5 2) = some (.shift 4)) (by decide +kernel)
  have hg := (Draft.declared_sums.produceAll _).consistent.wellFormed hbuild
  obtain ⟨s, hs, hmove⟩ := Option.bind_eq_some_iff.1 hmove
  obtain ⟨t, ht, haction⟩ := Option.map_eq_some_iff.1 haction
  replace ht := eq_ok_of_toOption ht
  exact ⟨g, t, s, hg, ht, hs, hmove, hlevel, hgroup, haction, action_decided hg ht hs 2⟩

end Tables

end ShiftReduce
