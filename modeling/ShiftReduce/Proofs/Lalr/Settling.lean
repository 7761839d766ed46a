import ShiftReduce.Proofs.Lalr.Tables

/-!
# What the order of the offers decides

The offers on a terminal come one after the other, and each is held against what the cell has kept of
those before. If none of them clashes, the cell is settled by all of them together (`Cell.Settled`): the
production that it holds outranks all others and is preferred to the shift, or the shift is preferred to
all productions. There is only one such cell (`Cell.Settled.unique`), so what a cell holds in the end
does not depend on the order of the offers.

Whether there is a clash can depend on it. Two productions of one level clash if they meet, but they
do not meet if the cell already holds something that is preferred to both. This is the only way
(`Cell.HidesTie`): without it, a cell is settled only if precedence chooses between any two offers
(`Cell.Settled.comparable`), and such offers do not clash in any order (`Cell.Comparable.exists_offer`).
-/

namespace ShiftReduce

/-- Whether the offer is to shift. -/
def Offer.isShift : Offer → Bool
  | .shift _ => true
  | .reduce _ => false
  | .accept => false

/-! ### Levels -/

/-- What the operators of a group make of a production of the given level. -/
def PrecGroup.choice (group : PrecGroup) (level : Nat) : Preference :=
  if level = group.level then
    match group.assoc with
    | .left => .reduce
    | .right => .shift
    | .none => .neither
  else if level < group.level then .shift
  else .reduce

namespace PrecGroup

variable {group : PrecGroup} {low high : Nat}

/-- A production that gives way to the shift is not of a higher level. -/
theorem le_of_choice_eq_shift (h : group.choice high = .shift) : high ≤ group.level := by
  by_contra hgt
  rw [choice, if_neg (by omega), if_neg (by omega)] at h
  exact absurd h (by simp)

/-- If a production gives way to the shift, so does one of a lower level. -/
theorem choice_eq_shift (hlt : low < high) (h : group.choice high = .shift) :
    group.choice low = .shift := by
  have hle := le_of_choice_eq_shift h
  rw [choice, if_neg (by omega), if_pos (by omega)]

/-- If a production does not give way to the shift, one of a higher level is preferred to it. -/
theorem choice_eq_reduce (hlt : low < high) (h : group.choice low ≠ .shift) :
    group.choice high = .reduce := by
  have hle : group.level ≤ low := by
    by_contra hgt
    rw [choice, if_neg (by omega), if_pos (by omega)] at h
    exact h rfl
  rw [choice, if_neg (by omega), if_neg (by omega)]

/-- A production that does not give way to the shift is of a higher level than one that does. -/
theorem lt_of_choice (hlow : group.choice low = .shift) (hhigh : group.choice high ≠ .shift) :
    low < high := by
  rcases Nat.lt_trichotomy low high with hlt | rfl | hgt
  · exact hlt
  · exact absurd hlow hhigh
  · exact absurd (choice_eq_shift hgt hlow) hhigh

end PrecGroup

namespace Grammar

variable {g : Grammar} {p q r t : Nat} {choice : Preference}

/-- The production `p` is of a higher level than the production `q`. -/
def Outranks (g : Grammar) (p q : Nat) : Prop :=
  ∃ a b, g.prodPrec p = some a ∧ g.prodPrec q = some b ∧ b.level < a.level

/-- The productions `p` and `q` are of the same level. -/
def Ties (g : Grammar) (p q : Nat) : Prop :=
  ∃ a b, g.prodPrec p = some a ∧ g.prodPrec q = some b ∧ a.level = b.level

instance (g : Grammar) (p q : Nat) : Decidable (g.Ties p q) :=
  decidable_of_iff (∃ a ∈ g.prodPrec p, ∃ b ∈ g.prodPrec q, a.level = b.level) (by simp [Ties])

theorem betterProd_eq_some_iff :
    betterProd g p q = some r ↔ r = p ∧ g.Outranks p q ∨ r = q ∧ g.Outranks q p := by
  rw [betterProd]
  cases hp : g.prodPrec p with
  | none => simp [Outranks, hp]
  | some a =>
    cases hq : g.prodPrec q with
    | none => simp [Outranks, hp, hq]
    | some b =>
      simp only [Outranks, hp, hq, Option.some.injEq, exists_and_left, exists_eq_left']
      split
      · next hlt => simp [hlt, Nat.not_lt_of_lt hlt, eq_comm]
      · next hge =>
        split
        · next hlt => simp [hlt, hge, eq_comm]
        · next hge' => simp [hge, hge']

theorem preference_eq_some_iff : preference g p t = some choice ↔
    ∃ a b, g.prodPrec p = some a ∧ g.terminalPrec t = some b ∧ b.choice a.level = choice := by
  rw [preference]
  cases hp : g.prodPrec p with
  | none => simp
  | some a =>
    cases ht : g.terminalPrec t with
    | none => simp
    | some b =>
      simp only [Option.some.injEq, exists_and_left, exists_eq_left', PrecGroup.choice]
      split
      · cases b.assoc with
        | left => simp
        | right => simp
        | none => simp
      · split
        · simp
        · simp

theorem Outranks.trans (h : g.Outranks p q) (h' : g.Outranks q r) : g.Outranks p r := by
  obtain ⟨a, b, ha, hb, hlt⟩ := h
  obtain ⟨b', c, hb', hc, hlt'⟩ := h'
  obtain rfl : b = b' := Option.some.inj (hb.symm.trans hb')
  exact ⟨a, c, ha, hc, Nat.lt_trans hlt' hlt⟩

theorem Outranks.asymm (h : g.Outranks p q) : ¬ g.Outranks q p := by
  intro h'
  obtain ⟨a, a', ha, ha', hlt⟩ := h.trans h'
  obtain rfl : a = a' := Option.some.inj (ha.symm.trans ha')
  exact Nat.lt_irrefl _ hlt

/-- Two productions that have groups can be compared. -/
theorem outranks_or_ties {a b : PrecGroup} (ha : g.prodPrec p = some a) (hb : g.prodPrec q = some b) :
    g.Outranks p q ∨ g.Outranks q p ∨ g.Ties p q := by
  rcases Nat.lt_trichotomy a.level b.level with hlt | heq | hgt
  · exact Or.inr (Or.inl ⟨b, a, hb, ha, hlt⟩)
  · exact Or.inr (Or.inr ⟨a, b, ha, hb, heq⟩)
  · exact Or.inl ⟨a, b, ha, hb, hgt⟩

theorem Outranks.preference_shift (h : g.Outranks p q) (hp : preference g p t = some .shift) :
    preference g q t = some .shift := by
  obtain ⟨a, b, ha, hb, hlt⟩ := h
  obtain ⟨a', c, ha', hc, hchoice⟩ := preference_eq_some_iff.1 hp
  obtain rfl : a = a' := Option.some.inj (ha.symm.trans ha')
  exact preference_eq_some_iff.2 ⟨b, c, hb, hc, PrecGroup.choice_eq_shift hlt hchoice⟩

theorem Outranks.preference_reduce (h : g.Outranks p q) (hq : preference g q t = some choice)
    (hne : choice ≠ .shift) : preference g p t = some .reduce := by
  obtain ⟨a, b, ha, hb, hlt⟩ := h
  obtain ⟨b', c, hb', hc, rfl⟩ := preference_eq_some_iff.1 hq
  obtain rfl : b = b' := Option.some.inj (hb.symm.trans hb')
  exact preference_eq_some_iff.2 ⟨a, c, ha, hc, PrecGroup.choice_eq_reduce hlt hne⟩

/-- What does not give way to the shift outranks what does. -/
theorem outranks_of_preference (hp : preference g p t = some choice) (hne : choice ≠ .shift)
    (hq : preference g q t = some .shift) : g.Outranks p q := by
  obtain ⟨a, c, ha, hc, rfl⟩ := preference_eq_some_iff.1 hp
  obtain ⟨b, c', hb, hc', hchoice⟩ := preference_eq_some_iff.1 hq
  obtain rfl : c = c' := Option.some.inj (hc.symm.trans hc')
  exact ⟨a, b, ha, hb, PrecGroup.lt_of_choice hchoice hne⟩

end Grammar

/-! ### Settled cells -/

namespace Cell

variable {g : Grammar} {t : Nat} {made : Offer → Prop} {cell cell' : Cell} {verdict : Option Verdict}
  {prod old next : Nat}

/-- The production is offered and outranks all others that are. -/
def Foremost (g : Grammar) (made : Offer → Prop) (prod : Nat) : Prop :=
  made (.reduce prod) ∧ ∀ other, made (.reduce other) → other ≠ prod → g.Outranks prod other

theorem Foremost.unique (h : Foremost g made prod) (h' : Foremost g made old) : prod = old := by
  by_contra hne
  exact (h.2 old h'.1 (Ne.symm hne)).asymm (h'.2 prod h.1 hne)

/-- A production that is foremost stays so beside one that it outranks. -/
theorem Foremost.keep (h : Foremost g made old) (hrank : g.Outranks old prod) :
    Foremost g (fun o => made o ∨ o = .reduce prod) old := by
  refine ⟨Or.inl h.1, ?_⟩
  rintro other (hmade | heq) hne
  · exact h.2 other hmade hne
  · rwa [Offer.reduce.inj heq]

/-- A production that outranks the foremost one takes its place. -/
theorem Foremost.supersede (h : Foremost g made old) (hrank : g.Outranks prod old) :
    Foremost g (fun o => made o ∨ o = .reduce prod) prod := by
  refine ⟨Or.inr rfl, ?_⟩
  rintro other (hmade | heq) hne
  · by_cases hold : other = old
    · rwa [hold]
    · exact hrank.trans (h.2 other hmade hold)
  · exact absurd (Offer.reduce.inj heq) hne

theorem Foremost.of_shift (h : Foremost g made prod) :
    Foremost g (fun o => made o ∨ o = .shift next) prod :=
  ⟨Or.inl h.1, fun other hmade => h.2 other (hmade.resolve_right (by simp))⟩

/-- The cell is what precedence makes of the offers made to it, whatever their order. -/
def Settled (g : Grammar) (t : Nat) (made : Offer → Prop) : Cell → Prop
  | .vacant => ∀ o, ¬ made o
  | .shift next => made (.shift next) ∧ ¬ made .accept ∧
    ∀ prod, made (.reduce prod) → preference g prod t = some .shift
  | .reduce prod => Foremost g made prod ∧ ¬ made .accept ∧
    ∀ next, made (.shift next) → preference g prod t = some .reduce
  | .accept => made .accept ∧ ∀ o, made o → o = .accept
  | .emptied next prod => made (.shift next) ∧ Foremost g made prod ∧ ¬ made .accept ∧
    preference g prod t = some .neither

/-- What a settled cell holds has been offered. -/
theorem Settled.holds (h : cell.Settled g t made) : cell.From made := by
  cases cell with
  | vacant => trivial
  | shift next => exact h.1
  | reduce prod => exact h.1.1
  | accept => exact h.1
  | emptied next prod => exact ⟨h.1, h.2.1.1⟩

/-- Weighing a shift against the foremost production. -/
theorem settled_weigh (hshift : made (.shift next)) (hprod : Foremost g made prod)
    (haccept : ¬ made .accept) {choice : Preference} (hchoice : preference g prod t = some choice) :
    (weigh next prod choice).Settled g t made := by
  cases choice with
  | shift =>
    refine ⟨hshift, haccept, fun other hother => ?_⟩
    by_cases heq : other = prod
    · rw [heq, hchoice]
    · exact (hprod.2 other hother heq).preference_shift hchoice
  | reduce => exact ⟨hprod, haccept, fun _ _ => hchoice⟩
  | neither => exact ⟨hshift, hprod, haccept, hchoice⟩

/-- A shift keeps a cell settled. -/
theorem Settled.offerShift (h : cell.Settled g t made) (hone : ∀ old, made (.shift old) → old = next)
    (hoffer : cell.offerShift g t next = .ok (cell', verdict)) :
    cell'.Settled g t fun o => made o ∨ o = .shift next := by
  have hreduce : ∀ {prod}, made (.reduce prod) ∨ Offer.reduce prod = .shift next →
      made (.reduce prod) := fun h => h.resolve_right (by simp)
  have haccept : ¬ made .accept → ¬ (made .accept ∨ Offer.accept = .shift next) := by simp
  cases cell with
  | vacant =>
    obtain ⟨rfl, -⟩ := Prod.mk.inj (Except.ok.inj hoffer)
    exact ⟨Or.inr rfl, haccept (h _), fun prod hprod => absurd (hreduce hprod) (h _)⟩
  | shift old =>
    obtain rfl := hone old h.1
    rw [Cell.offerShift, if_pos rfl] at hoffer
    obtain ⟨rfl, -⟩ := Prod.mk.inj (Except.ok.inj hoffer)
    exact ⟨Or.inr rfl, haccept h.2.1, fun prod hprod => h.2.2 prod (hreduce hprod)⟩
  | reduce prod =>
    rw [Cell.offerShift] at hoffer
    split at hoffer
    · next choice hchoice =>
      obtain ⟨rfl, -⟩ := Prod.mk.inj (Except.ok.inj hoffer)
      exact settled_weigh (Or.inr rfl) h.1.of_shift (haccept h.2.1) hchoice
    · exact absurd hoffer (by simp)
  | accept => exact absurd hoffer (by simp [Cell.offerShift])
  | emptied old prod =>
    obtain ⟨rfl, -⟩ := Prod.mk.inj (Except.ok.inj hoffer)
    exact ⟨Or.inl h.1, h.2.1.of_shift, haccept h.2.2.1, h.2.2.2⟩

/-- A new production keeps a cell settled. -/
theorem Settled.offerReduce (h : cell.Settled g t made) (hnew : ¬ made (.reduce prod))
    (hoffer : cell.offerReduce g t prod = .ok (cell', verdict)) :
    cell'.Settled g t fun o => made o ∨ o = .reduce prod := by
  have hshift : ∀ {next}, made (.shift next) ∨ Offer.shift next = .reduce prod →
      made (.shift next) := fun h => h.resolve_right (by simp)
  have haccept : ¬ made .accept → ¬ (made .accept ∨ Offer.accept = .reduce prod) := by simp
  have hother : ∀ {other}, made (.reduce other) ∨ Offer.reduce other = .reduce prod →
      other ≠ prod → made (.reduce other) := fun h hne =>
    h.resolve_right fun heq => hne (Offer.reduce.inj heq)
  cases cell with
  | vacant =>
    obtain ⟨rfl, -⟩ := Prod.mk.inj (Except.ok.inj hoffer)
    exact ⟨⟨Or.inr rfl, fun other hmade hne => absurd (hother hmade hne) (h _)⟩, haccept (h _),
      fun next hnext => absurd (hshift hnext) (h _)⟩
  | shift next =>
    rw [Cell.offerReduce] at hoffer
    split at hoffer
    · next choice hchoice =>
      obtain ⟨rfl, -⟩ := Prod.mk.inj (Except.ok.inj hoffer)
      by_cases hpref : choice = .shift
      · subst hpref
        refine ⟨Or.inl h.1, haccept h.2.1, fun other hmade => ?_⟩
        by_cases heq : other = prod
        · rw [heq, hchoice]
        · exact h.2.2 other (hother hmade heq)
      · -- all productions before gave way to the shift, and this one does not
        refine settled_weigh (Or.inl h.1) ⟨Or.inr rfl, fun other hmade hne => ?_⟩
          (haccept h.2.1) hchoice
        exact Grammar.outranks_of_preference hchoice hpref (h.2.2 other (hother hmade hne))
    · exact absurd hoffer (by simp)
  | reduce old =>
    rw [Cell.offerReduce] at hoffer
    split at hoffer
    · next winner hwinner =>
      obtain ⟨rfl, -⟩ := Prod.mk.inj (Except.ok.inj hoffer)
      rcases Grammar.betterProd_eq_some_iff.1 hwinner with ⟨rfl, hrank⟩ | ⟨rfl, hrank⟩
      · exact ⟨h.1.keep hrank, haccept h.2.1, fun next hnext => h.2.2 next (hshift hnext)⟩
      · exact ⟨h.1.supersede hrank, haccept h.2.1, fun next hnext =>
          hrank.preference_reduce (h.2.2 next (hshift hnext)) (by simp)⟩
    · exact absurd hoffer (by simp)
  | accept => exact absurd hoffer (by simp [Cell.offerReduce])
  | emptied next old =>
    have hne : old ≠ prod := by
      rintro rfl
      exact hnew h.2.1.1
    rw [Cell.offerReduce, if_neg hne] at hoffer
    split at hoffer
    · exact absurd hoffer (by simp)
    · next winner hwinner =>
      rcases Grammar.betterProd_eq_some_iff.1 hwinner with ⟨rfl, hrank⟩ | ⟨rfl, hrank⟩
      · rw [if_pos rfl] at hoffer
        obtain ⟨rfl, -⟩ := Prod.mk.inj (Except.ok.inj hoffer)
        exact ⟨Or.inl h.1, h.2.1.keep hrank, haccept h.2.2.1, h.2.2.2⟩
      · -- a production that outranks one on the level of the terminal is preferred to the shift
        have hchoice := hrank.preference_reduce h.2.2.2 (by simp)
        rw [if_neg (Ne.symm hne), hchoice] at hoffer
        obtain ⟨rfl, -⟩ := Prod.mk.inj (Except.ok.inj hoffer)
        exact settled_weigh (Or.inl h.1) (h.2.1.supersede hrank) (haccept h.2.2.1) hchoice

/-- An offer keeps a cell settled, if it is a new one or the same shift as before. -/
theorem Settled.offer {o : Offer} (h : cell.Settled g t made)
    (hone : ∀ next old, o = .shift next → made (.shift old) → old = next)
    (hnew : o.isShift = false → ¬ made o) (hoffer : cell.offer g t o = .ok (cell', verdict)) :
    cell'.Settled g t fun o' => made o' ∨ o' = o := by
  cases o with
  | shift next => exact h.offerShift (fun old => hone next old rfl) hoffer
  | reduce prod => exact h.offerReduce (hnew rfl) hoffer
  | accept =>
    cases cell with
    | vacant =>
      obtain ⟨rfl, -⟩ := Prod.mk.inj (Except.ok.inj hoffer)
      exact ⟨Or.inr rfl, fun o ho => ho.resolve_left (h o)⟩
    | shift _ => exact absurd hoffer (by simp [Cell.offer, offerAccept])
    | reduce _ => exact absurd hoffer (by simp [Cell.offer, offerAccept])
    | accept => exact absurd hoffer (by simp [Cell.offer, offerAccept])
    | emptied _ _ => exact absurd hoffer (by simp [Cell.offer, offerAccept])

/-- The offers settle on one cell. -/
theorem Settled.unique (h : cell.Settled g t made) (h' : cell'.Settled g t made)
    (hone : ∀ next old, made (.shift next) → made (.shift old) → old = next) : cell = cell' := by
  cases cell with
  | vacant =>
    cases cell' with
    | vacant => rfl
    | shift _ => exact absurd h'.1 (h _)
    | reduce _ => exact absurd h'.1.1 (h _)
    | accept => exact absurd h'.1 (h _)
    | emptied _ _ => exact absurd h'.1 (h _)
  | shift next =>
    cases cell' with
    | vacant => exact absurd h.1 (h' _)
    | shift old => rw [hone next old h.1 h'.1]
    | reduce prod => exact absurd ((h.2.2 prod h'.1.1).symm.trans (h'.2.2 next h.1)) (by simp)
    | accept => exact absurd h'.1 h.2.1
    | emptied _ prod => exact absurd ((h.2.2 prod h'.2.1.1).symm.trans h'.2.2.2) (by simp)
  | reduce prod =>
    cases cell' with
    | vacant => exact absurd h.1.1 (h' _)
    | shift next => exact absurd ((h'.2.2 prod h.1.1).symm.trans (h.2.2 next h'.1)) (by simp)
    | reduce old => rw [h.1.unique h'.1]
    | accept => exact absurd h'.1 h.2.1
    | emptied next old =>
      obtain rfl := h.1.unique h'.2.1
      exact absurd ((h.2.2 next h'.1).symm.trans h'.2.2.2) (by simp)
  | accept =>
    cases cell' with
    | vacant => exact absurd h.1 (h' _)
    | shift _ => exact absurd h.1 h'.2.1
    | reduce _ => exact absurd h.1 h'.2.1
    | accept => rfl
    | emptied _ _ => exact absurd h.1 h'.2.2.1
  | emptied next prod =>
    cases cell' with
    | vacant => exact absurd h.1 (h' _)
    | shift _ => exact absurd ((h'.2.2 prod h.2.1.1).symm.trans h.2.2.2) (by simp)
    | reduce old =>
      obtain rfl := h.2.1.unique h'.1
      exact absurd ((h'.2.2 next h.1).symm.trans h.2.2.2) (by simp)
    | accept => exact absurd h'.1 h.2.2.1
    | emptied next' old => rw [hone next next' h.1 h'.1, h.2.1.unique h'.2.1]

/-! ### Offers that do not clash in any order -/

/-- Precedence chooses between any two offers on the terminal. -/
structure Comparable (g : Grammar) (t : Nat) (made : Offer → Prop) : Prop where
  reduce : ∀ {p q : Nat}, made (.reduce p) → made (.reduce q) → p ≠ q →
    g.Outranks p q ∨ g.Outranks q p
  chosen : ∀ {next prod : Nat}, made (.shift next) → made (.reduce prod) →
    ∃ choice, preference g prod t = some choice
  accept : ∀ {o : Offer}, made .accept → made o → o = .accept

/-- Two productions of one level are offered beside something that precedence prefers to both: a
production of a higher level or the shift. -/
def HidesTie (g : Grammar) (t : Nat) (made : Offer → Prop) : Prop :=
  ∃ p q, p ≠ q ∧ made (.reduce p) ∧ made (.reduce q) ∧ g.Ties p q ∧
    ((∃ r, made (.reduce r) ∧ g.Outranks r p) ∨
      ∃ next, made (.shift next) ∧ preference g p t = some .shift)

/-- A tie beside the foremost production would be hidden. -/
theorem Foremost.outranks_or (h : Foremost g made prod) (htie : ¬ HidesTie g t made) {p q : Nat}
    (hp : made (.reduce p)) (hq : made (.reduce q)) (hne : p ≠ q) :
    g.Outranks p q ∨ g.Outranks q p := by
  by_cases hprod : prod = p
  · exact Or.inl (hprod ▸ h.2 q hq (fun heq => hne (hprod.symm.trans heq.symm)))
  by_cases hprod' : prod = q
  · exact Or.inr (hprod' ▸ h.2 p hp (fun heq => hprod heq.symm))
  have hrank := h.2 p hp (Ne.symm hprod)
  have ⟨_, a, _, ha, _⟩ := hrank
  have ⟨_, b, _, hb, _⟩ := h.2 q hq (Ne.symm hprod')
  rcases Grammar.outranks_or_ties ha hb with hpq | hqp | heq
  · exact Or.inl hpq
  · exact Or.inr hqp
  · exact absurd ⟨p, q, hne, hp, hq, heq, Or.inl ⟨prod, h.1, hrank⟩⟩ htie

/-- If the foremost production and the shift can be compared, so can every other one. -/
theorem Foremost.exists_preference (h : Foremost g made prod) {choice : Preference}
    (hchoice : preference g prod t = some choice) {other : Nat} (hother : made (.reduce other)) :
    ∃ choice', preference g other t = some choice' := by
  by_cases heq : other = prod
  · exact ⟨choice, heq ▸ hchoice⟩
  · obtain ⟨-, b, -, hb, -⟩ := h.2 other hother heq
    obtain ⟨-, c, -, hc, -⟩ := Grammar.preference_eq_some_iff.1 hchoice
    exact ⟨_, Grammar.preference_eq_some_iff.2 ⟨b, c, hb, hc, rfl⟩⟩

/-- Without hidden ties, a cell is settled only if precedence chooses between any two offers. -/
theorem Settled.comparable (h : cell.Settled g t made) (htie : ¬ HidesTie g t made) :
    Comparable g t made := by
  cases cell with
  | vacant =>
    exact
      { reduce := fun hp => absurd hp (h _), chosen := fun hnext => absurd hnext (h _)
        accept := fun haccept => absurd haccept (h _) }
  | shift next =>
    refine
      { reduce := fun {p q} hp hq hne => ?_, chosen := fun _ hprod => ⟨_, h.2.2 _ hprod⟩
        accept := fun haccept => absurd haccept h.2.1 }
    obtain ⟨a, -, ha, -⟩ := Grammar.preference_eq_some_iff.1 (h.2.2 p hp)
    obtain ⟨b, -, hb, -⟩ := Grammar.preference_eq_some_iff.1 (h.2.2 q hq)
    rcases Grammar.outranks_or_ties ha hb with hpq | hqp | heq
    · exact Or.inl hpq
    · exact Or.inr hqp
    · exact absurd ⟨p, q, hne, hp, hq, heq, Or.inr ⟨next, h.1, h.2.2 p hp⟩⟩ htie
  | reduce prod =>
    exact
      { reduce := h.1.outranks_or htie
        chosen := fun hnext hprod => h.1.exists_preference (h.2.2 _ hnext) hprod
        accept := fun haccept => absurd haccept h.2.1 }
  | accept =>
    have hnone : ∀ {o}, o ≠ .accept → ¬ made o := fun hne ho => hne (h.2 _ ho)
    exact
      { reduce := fun hp => absurd hp (hnone (by simp))
        chosen := fun hnext => absurd hnext (hnone (by simp)), accept := fun _ ho => h.2 _ ho }
  | emptied next prod =>
    exact
      { reduce := h.2.1.outranks_or htie
        chosen := fun _ hprod => h.2.1.exists_preference h.2.2.2 hprod
        accept := fun haccept => absurd haccept h.2.2.1 }

/-- Precedence chooses between an offer and what the cell has kept of those before. -/
theorem Comparable.exists_offer (h : Comparable g t made) {before : Offer → Prop}
    (hbefore : ∀ o, before o → made o) (hcell : cell.From before) {o : Offer} (ho : made o)
    (hone : ∀ next old, o = .shift next → before (.shift old) → old = next)
    (hnew : o.isShift = false → ¬ before o) :
    ∃ cell' verdict, cell.offer g t o = .ok (cell', verdict) := by
  cases o with
  | shift next =>
    cases cell with
    | vacant => exact ⟨_, _, rfl⟩
    | shift old => exact ⟨_, _, if_pos (hone next old rfl hcell)⟩
    | reduce prod =>
      obtain ⟨choice, hchoice⟩ := h.chosen ho (hbefore _ hcell)
      rw [Cell.offer, offerShift, hchoice]
      exact ⟨_, _, rfl⟩
    | accept => exact absurd (h.accept (hbefore _ hcell) ho) (by simp)
    | emptied _ _ => exact ⟨_, _, rfl⟩
  | reduce prod =>
    have hranked : ∀ {old}, before (.reduce old) → ∃ winner, betterProd g old prod = some winner := by
      intro old hold
      have hne : old ≠ prod := by
        rintro rfl
        exact hnew rfl hold
      rcases h.reduce (hbefore _ hold) ho hne with hrank | hrank
      · exact ⟨old, Grammar.betterProd_eq_some_iff.2 (Or.inl ⟨rfl, hrank⟩)⟩
      · exact ⟨prod, Grammar.betterProd_eq_some_iff.2 (Or.inr ⟨rfl, hrank⟩)⟩
    cases cell with
    | vacant => exact ⟨_, _, rfl⟩
    | shift next =>
      obtain ⟨choice, hchoice⟩ := h.chosen (hbefore _ hcell) ho
      rw [Cell.offer, offerReduce, hchoice]
      exact ⟨_, _, rfl⟩
    | reduce old =>
      obtain ⟨winner, hwinner⟩ := hranked hcell
      rw [Cell.offer, offerReduce, hwinner]
      exact ⟨_, _, rfl⟩
    | accept => exact absurd (h.accept (hbefore _ hcell) ho) (by simp)
    | emptied next old =>
      obtain ⟨winner, hwinner⟩ := hranked hcell.2
      obtain ⟨choice, hchoice⟩ := h.chosen (hbefore _ hcell.1) ho
      simp only [Cell.offer, offerReduce, hwinner, hchoice]
      split
      · exact ⟨_, _, rfl⟩
      · split
        · exact ⟨_, _, rfl⟩
        · exact ⟨_, _, rfl⟩
  | accept =>
    -- nothing can have been offered before
    have hnone : ∀ o, ¬ before o := by
      intro o hold
      obtain rfl := h.accept ho (hbefore _ hold)
      exact hnew rfl hold
    cases cell with
    | vacant => exact ⟨_, _, rfl⟩
    | shift _ => exact absurd hcell (hnone _)
    | reduce _ => exact absurd hcell (hnone _)
    | accept => exact absurd hcell (hnone _)
    | emptied _ _ => exact absurd hcell.1 (hnone _)

end Cell

/-! ### Rows -/

namespace Tables

variable {g : Grammar}

/-- Offers as a state makes them: on each terminal to shift to one state only, on terminals of the
grammar, and nothing but a shift twice. -/
structure Regular (g : Grammar) (os : List (Nat × Offer)) : Prop where
  shift : ∀ t next old, (t, .shift next) ∈ os → (t, .shift old) ∈ os → old = next
  below : ∀ o ∈ os, o.1 < g.terminals.size
  nodup : (os.filter fun o => !o.2.isShift).Nodup

variable {done rest os : List (Nat × Offer)} {t i : Nat} {o : Offer} {row row' : Row}

/-- An offer that is no shift has not been made before. -/
theorem Regular.not_mem (h : Regular g (done ++ (t, o) :: rest)) (ho : o.isShift = false) :
    (t, o) ∉ done := by
  intro hmem
  have hnodup := h.nodup
  rw [List.filter_append, List.nodup_append] at hnodup
  exact hnodup.2.2 (t, o) (List.mem_filter.2 ⟨hmem, by simp [ho]⟩) (t, o)
    (List.mem_filter.2 ⟨List.mem_cons_self, by simp [ho]⟩) rfl

/-- A shift is the same as before. -/
theorem Regular.shift_eq (h : Regular g (done ++ (t, o) :: rest)) (next old : Nat)
    (ho : o = .shift next) (hold : (t, .shift old) ∈ done) : old = next := by
  subst ho
  exact h.shift t next old (List.mem_append_right _ List.mem_cons_self)
    (List.mem_append_left _ hold)

/-- An offer settles its cell and leaves the others as they are. -/
theorem settled_set {cells : Array Cell} {cell : Cell} (hlt : t < cells.size)
    (hcells : ∀ u, (cellAt cells u).Settled g u fun o' => (u, o') ∈ done)
    (hcell : cell.Settled g t fun o' => (t, o') ∈ done ∨ o' = o) (u : Nat) :
    (cellAt (cells.setIfInBounds t cell) u).Settled g u fun o' => (u, o') ∈ done ++ [(t, o)] := by
  have hmem : ∀ {o'}, (u, o') ∈ done ++ [(t, o)] ↔ (u, o') ∈ done ∨ u = t ∧ o' = o := by
    intro o'
    rw [List.mem_append, List.mem_singleton, Prod.mk.injEq]
  simp only [hmem]
  rw [cellAt_set hlt]
  split
  · next heq =>
    subst heq
    simpa only [true_and] using hcell
  · next hne => simpa only [Ne.symm hne, false_and, or_false] using hcells u

/-- If no offer clashes, all cells are settled. The induction is on the offers still to be made. -/
theorem Regular.settled_fillCells (h : Regular g (done ++ rest))
    (hsize : row.cells.size = g.terminals.size)
    (hrow : ∀ t, (cellAt row.cells t).Settled g t fun o => (t, o) ∈ done)
    (hfill : fillCells g i rest row = .ok row') (t : Nat) :
    (cellAt row'.cells t).Settled g t fun o => (t, o) ∈ done ++ rest := by
  induction rest generalizing done row with
  | nil =>
    obtain rfl : row = row' := Except.ok.inj hfill
    rw [List.append_nil]
    exact hrow t
  | cons o rest ih =>
    obtain ⟨u, o⟩ := o
    rw [fillCells] at hfill
    split at hfill
    · exact absurd hfill (by simp)
    · next cell verdict hoffer =>
      have hlt : u < row.cells.size := by
        rw [hsize]
        exact h.below (u, o) (List.mem_append_right _ List.mem_cons_self)
      have hcell := (hrow u).offer h.shift_eq h.not_mem hoffer
      rw [List.append_cons] at h ⊢
      refine ih h ?_ ?_ hfill
      · exact Array.size_setIfInBounds.trans hsize
      · exact settled_set hlt hrow hcell

/-- Offers that precedence chooses between fill their cells. -/
theorem Regular.exists_fillCells (h : Regular g (done ++ rest))
    (hcomparable : ∀ t, Cell.Comparable g t fun o => (t, o) ∈ done ++ rest) (i : Nat)
    (hsize : row.cells.size = g.terminals.size)
    (hrow : ∀ t, (cellAt row.cells t).Settled g t fun o => (t, o) ∈ done) :
    ∃ row', fillCells g i rest row = .ok row' := by
  induction rest generalizing done row with
  | nil => exact ⟨row, rfl⟩
  | cons o rest ih =>
    obtain ⟨u, o⟩ := o
    obtain ⟨cell, verdict, hoffer⟩ := (hcomparable u).exists_offer
      (fun _ => List.mem_append_left _) (hrow u).holds
      (List.mem_append_right done List.mem_cons_self) h.shift_eq h.not_mem
    have hlt : u < row.cells.size := by
      rw [hsize]
      exact h.below (u, o) (List.mem_append_right _ List.mem_cons_self)
    have hcell := (hrow u).offer h.shift_eq h.not_mem hoffer
    rw [fillCells, show (row.cells[u]?.getD .vacant).offer g u o = .ok (cell, verdict) from hoffer]
    rw [List.append_cons] at h hcomparable
    refine ih h hcomparable ?_ ?_
    · exact Array.size_setIfInBounds.trans hsize
    · exact settled_set hlt hrow hcell

/-- Before any offer all cells are settled. -/
theorem settled_vacantCells (g : Grammar) (t : Nat) :
    (cellAt (vacantCells g) t).Settled g t fun o => (t, o) ∈ ([] : List (Nat × Offer)) := by
  rw [cellAt_vacantCells]
  exact fun o ho => absurd ho List.not_mem_nil

theorem Regular.exists_fill (h : Regular g os)
    (hcomparable : ∀ t, Cell.Comparable g t fun o => (t, o) ∈ os) (i : Nat)
    (before : List Resolution) : ∃ row, fillCells g i os ⟨vacantCells g, before⟩ = .ok row := by
  have hall : Regular g ([] ++ os) := h
  exact hall.exists_fillCells hcomparable i Array.size_replicate (settled_vacantCells g)

/-- The row of a state is settled by the offers of the state. -/
theorem RowFor.settled {s : State} {quiet : Prop} {cells : Array Cell} (h : RowFor g s quiet cells)
    (hregular : Regular g (offers g s)) (t : Nat) :
    (cellAt cells t).Settled g t fun o => (t, o) ∈ offers g s := by
  obtain ⟨i, before, row, hfill, rfl⟩ := h.filled
  have hall : Regular g ([] ++ offers g s) := hregular
  exact hall.settled_fillCells Array.size_replicate (settled_vacantCells g) hfill t

end Tables

end ShiftReduce
