import ShiftReduce.Proofs.Grammar.Closed
import ShiftReduce.Proofs.Lalr.Resolutions

/-!
# Conflicts

If the tables are not built, the conflict that is reported is between two candidates for the action of a
state on a terminal, and precedence does not choose between them (`Grammar.Unsettled`). The construction
halts at the first offer that clashes (`Tables.Regular.exists_clash`), and what the cell holds then has
been offered to it before (`Tables.genuine_of_error`).

So if there are never two candidates, the tables are built and nothing is recorded. Both are said by
`Tables.conflict_genuine`, for the grammars that a draft makes (`Draft.Consistent.wellFormed`). It is not
enough that all numbers name something (`Tables.conflict_spurious`): a nonterminal must list no production
twice and none of another nonterminal, and the end of the input must be in no production.
-/

namespace ShiftReduce

namespace Grammar

variable {g : Grammar} {p q t : Nat}

/-- A conflict of the given kind on the terminal `t` that precedence does not settle. A shift meets a
production and one of the two has no group; or no shift is there, and either one of the two accepts, or
they are productions of which one has no group or which are of the same level. -/
def Unsettled (g : Grammar) (t : Nat) : ConflictKind → Offer → Offer → Prop
  | .shiftReduce, o, o' => ∃ next prod,
    (o = .shift next ∧ o' = .reduce prod ∨ o = .reduce prod ∧ o' = .shift next) ∧
    (g.prodPrec prod = none ∨ g.terminalPrec t = none)
  | .reduceReduce, o, o' => o.isShift = false ∧ o'.isShift = false ∧
    (o = .accept ∨ o' = .accept ∨ ∃ p q, o = .reduce p ∧ o' = .reduce q ∧
      (g.prodPrec p = none ∨ g.prodPrec q = none ∨ g.Ties p q))

theorem preference_eq_none (h : preference g p t = none) :
    g.prodPrec p = none ∨ g.terminalPrec t = none := by
  cases hp : g.prodPrec p with
  | none => exact Or.inl rfl
  | some a =>
    cases ht : g.terminalPrec t with
    | none => exact Or.inr rfl
    | some b => exact absurd (preference_eq_some_iff.2 ⟨a, b, hp, ht, rfl⟩) (by simp [h])

theorem betterProd_eq_none (h : betterProd g p q = none) :
    g.prodPrec p = none ∨ g.prodPrec q = none ∨ g.Ties p q := by
  cases hp : g.prodPrec p with
  | none => exact Or.inl rfl
  | some a =>
    cases hq : g.prodPrec q with
    | none => exact Or.inr (Or.inl rfl)
    | some b =>
      rcases outranks_or_ties hp hq with hrank | hrank | htie
      · exact absurd (betterProd_eq_some_iff.2 (Or.inl ⟨rfl, hrank⟩)) (by simp [h])
      · exact absurd (betterProd_eq_some_iff.2 (Or.inr ⟨rfl, hrank⟩)) (by simp [h])
      · exact Or.inr (Or.inr htie)

theorem Unsettled.of_augment {kind : ConflictKind} {o o' : Offer}
    (h : g.augment.Unsettled t kind o o') : g.Unsettled t kind o o' := by
  cases kind with
  | shiftReduce =>
    obtain ⟨next, prod, hoffers, hnone⟩ := h
    rw [prodPrec_augment] at hnone
    exact ⟨next, prod, hoffers, hnone⟩
  | reduceReduce => simpa only [Unsettled, Ties, prodPrec_augment] using h

end Grammar

/-! ### Cells -/

/-- The offer clashes with one that has been made before, and precedence does not choose between the
two. -/
def Clash.Genuine (g : Grammar) (t : Nat) (made : Offer → Prop) (o : Offer) (clash : Clash) : Prop :=
  ∃ old, made old ∧ old ≠ o ∧ clash.previous = old.action ∧ clash.new = o.action ∧
    g.Unsettled t clash.kind old o

namespace Cell

variable {g : Grammar} {t next prod : Nat} {made : Offer → Prop} {cell : Cell} {o : Offer}
  {clash : Clash}

/-- A shift clashes with a production only. -/
theorem Settled.genuine_shift (h : cell.Settled g t made)
    (hone : ∀ old, made (.shift old) → old = next) (haccept : ¬ made .accept)
    (hoffer : cell.offerShift g t next = .error clash) : clash.Genuine g t made (.shift next) := by
  cases cell with
  | vacant => exact absurd hoffer (by simp [Cell.offerShift])
  | shift old =>
    rw [Cell.offerShift, if_pos (hone old h.1)] at hoffer
    exact absurd hoffer (by simp)
  | reduce prod =>
    rw [Cell.offerShift] at hoffer
    split at hoffer
    · exact absurd hoffer (by simp)
    · next hpref =>
      obtain rfl := Except.error.inj hoffer
      exact ⟨.reduce prod, h.1.1, by simp, rfl, rfl, next, prod, Or.inr ⟨rfl, rfl⟩,
        Grammar.preference_eq_none hpref⟩
  | accept => exact absurd h.1 haccept
  | emptied _ _ => exact absurd hoffer (by simp [Cell.offerShift])

/-- A production clashes with a shift, with another production or with accepting. -/
theorem Settled.genuine_reduce (h : cell.Settled g t made) (hnew : ¬ made (.reduce prod))
    (hoffer : cell.offerReduce g t prod = .error clash) : clash.Genuine g t made (.reduce prod) := by
  have hrival : ∀ {old}, made (.reduce old) → betterProd g old prod = none →
      Clash.Genuine g t made (.reduce prod) ⟨.reduceReduce, .reduce old, .reduce prod⟩ := by
    intro old hold hbetter
    refine ⟨.reduce old, hold, ?_, rfl, rfl, rfl, rfl, Or.inr (Or.inr ⟨old, prod, rfl, rfl, ?_⟩)⟩
    · rintro heq
      exact hnew (heq ▸ hold)
    · exact Grammar.betterProd_eq_none hbetter
  cases cell with
  | vacant => exact absurd hoffer (by simp [Cell.offerReduce])
  | shift next =>
    rw [Cell.offerReduce] at hoffer
    split at hoffer
    · exact absurd hoffer (by simp)
    · next hpref =>
      obtain rfl := Except.error.inj hoffer
      exact ⟨.shift next, h.1, by simp, rfl, rfl, next, prod, Or.inl ⟨rfl, rfl⟩,
        Grammar.preference_eq_none hpref⟩
  | reduce old =>
    rw [Cell.offerReduce] at hoffer
    split at hoffer
    · exact absurd hoffer (by simp)
    · next hbetter =>
      obtain rfl := Except.error.inj hoffer
      exact hrival h.1.1 hbetter
  | accept =>
    obtain rfl := Except.error.inj hoffer
    exact ⟨.accept, h.1, by simp, rfl, rfl, rfl, rfl, Or.inl rfl⟩
  | emptied next old =>
    rw [Cell.offerReduce] at hoffer
    split at hoffer
    · exact absurd hoffer (by simp)
    · split at hoffer
      · next hbetter =>
        obtain rfl := Except.error.inj hoffer
        exact hrival h.2.1.1 hbetter
      · next winner hwinner =>
        split at hoffer
        · exact absurd hoffer (by simp)
        · next hlost =>
          -- what outranks the production that met the shift can be compared with the shift
          have hrank := ((Grammar.betterProd_eq_some_iff.1 hwinner).resolve_left
            fun hold => hlost hold.1).2
          rw [hrank.preference_reduce h.2.2.2 (by simp)] at hoffer
          exact absurd hoffer (by simp)

/-- To accept clashes with a production only. -/
theorem Settled.genuine_accept (h : cell.Settled g t made) (hnew : ¬ made .accept)
    (hshift : ∀ next, ¬ made (.shift next)) (hoffer : cell.offerAccept = .error clash) :
    clash.Genuine g t made .accept := by
  cases cell with
  | vacant => exact absurd hoffer (by simp [offerAccept])
  | shift next => exact absurd h.1 (hshift next)
  | reduce prod =>
    obtain rfl := Except.error.inj hoffer
    exact ⟨.reduce prod, h.1.1, by simp, rfl, rfl, rfl, rfl, Or.inr (Or.inl rfl)⟩
  | accept => exact absurd h.1 hnew
  | emptied next _ => exact absurd h.1 (hshift next)

end Cell

/-! ### Rows -/

namespace Tables

variable {g : Grammar} {i a : Nat} {s : State} {done rest : List (Nat × Offer)} {row : Row}
  {halt : Halt}

/-- A row halts at one of the offers, with the cell that those before it have settled. -/
theorem Regular.exists_clash (h : Regular g (done ++ rest))
    (hsize : row.cells.size = g.terminals.size)
    (hrow : ∀ t, (cellAt row.cells t).Settled g t fun o => (t, o) ∈ done)
    (hfill : fillCells g i rest row = .error halt) : halt.state = i ∧
      ∃ (done' : List (Nat × Offer)) (o : Offer) (rest' : List (Nat × Offer)) (cell : Cell),
        done ++ rest = done' ++ (halt.terminal, o) :: rest' ∧
        (cell.Settled g halt.terminal fun o' => (halt.terminal, o') ∈ done') ∧
        cell.offer g halt.terminal o = .error halt.clash := by
  induction rest generalizing done row with
  | nil => exact absurd hfill (by simp [fillCells])
  | cons o rest ih =>
    obtain ⟨u, o⟩ := o
    rw [fillCells] at hfill
    split at hfill
    · next clash hoffer =>
      obtain rfl := Except.error.inj hfill
      exact ⟨rfl, done, o, rest, _, rfl, hrow u, hoffer⟩
    · next cell verdict hoffer =>
      have hlt : u < row.cells.size := by
        rw [hsize]
        exact h.below (u, o) (List.mem_append_right _ List.mem_cons_self)
      have hcell := (hrow u).offer h.shift_eq h.not_mem hoffer
      rw [List.append_cons] at h ⊢
      exact ih h (Array.size_setIfInBounds.trans hsize) (settled_set hlt hrow hcell) hfill

theorem exists_state_of_error {ss : List State} {filled : Filled}
    (h : fillRows g ss filled = .error halt) : ∃ (k : Nat) (s : State) (before : List Resolution),
      ss[k]? = some s ∧
        fillCells g (filled.rows.size + k) (offers g s) ⟨vacantCells g, before⟩ = .error halt := by
  induction ss generalizing filled with
  | nil => exact absurd h (by simp [fillRows])
  | cons s ss ih =>
    rw [fillRows] at h
    split at h
    · next halt' hrow =>
      obtain rfl := Except.error.inj h
      exact ⟨0, s, _, rfl, hrow⟩
    · obtain ⟨k, s', before, hs', hrow⟩ := ih h
      rw [Array.size_push, Nat.add_assoc, Nat.add_comm 1 k] at hrow
      exact ⟨k + 1, s', before, hs', hrow⟩

/-- What is reported has halted the row of a state. -/
theorem exists_halt (hg : g.WellFormed) {e : Conflict} (h : build g = .error e) :
    ∃ (halt : Halt) (s : State) (done : List (Nat × Offer)) (o : Offer) (rest : List (Nat × Offer))
      (cell : Cell), e = .ofHalt g.augment (statesOf g) halt ∧ (statesOf g)[halt.state]? = some s ∧
      offers g.augment s = done ++ (halt.terminal, o) :: rest ∧
      (cell.Settled g.augment halt.terminal fun o' => (halt.terminal, o') ∈ done) ∧
      cell.offer g.augment halt.terminal o = .error halt.clash := by
  rw [build, construct] at h
  split at h
  · next halt hhalt =>
    obtain ⟨k, s, before, hs, hrow⟩ := exists_state_of_error hhalt
    rw [Array.size_empty, Nat.zero_add] at hrow
    replace hs : (statesOf g)[k]? = some s := Array.getElem?_toList.symm.trans hs
    have hall : Regular g.augment ([] ++ offers g.augment s) := regular_offers hg hs
    obtain ⟨rfl, done, o, rest, cell, hsplit, hcell, hoffer⟩ :=
      hall.exists_clash Array.size_replicate (settled_vacantCells _) hrow
    exact ⟨halt, s, done, o, rest, cell, (Except.error.inj h).symm, hs, hsplit, hcell, hoffer⟩
  · exact absurd h (by simp)

/-- A state does not offer both to shift a terminal and to accept on it. -/
theorem not_mem_shift_of_accept (hg : g.WellFormed) (hs : (statesOf g)[i]? = some s)
    (haccept : (a, .accept) ∈ offers g.augment s) (next : Nat) :
    (a, .shift next) ∉ offers g.augment s := by
  obtain ⟨γ, hγ⟩ := exists_walk_of_state hg hs
  intro hshift
  exact (shift_offer_spec hg hγ hs hshift).2.1 (accept_offer_spec hg hγ hs haccept).1

/-- An offer of a state clashes with one that the state has made before. -/
theorem genuine_of_error (hg : g.WellFormed) (hs : (statesOf g)[i]? = some s) {o : Offer}
    (hsplit : offers g.augment s = done ++ (a, o) :: rest) {cell : Cell}
    (hcell : cell.Settled g.augment a fun o' => (a, o') ∈ done) {clash : Clash}
    (hoffer : cell.offer g.augment a o = .error clash) :
    clash.Genuine g.augment a (fun o' => (a, o') ∈ done) o := by
  have hregular : Regular g.augment (done ++ (a, o) :: rest) := hsplit ▸ regular_offers hg hs
  have hdone : ∀ {o'}, (a, o') ∈ done → (a, o') ∈ offers g.augment s := fun ho' => by
    rw [hsplit]
    exact List.mem_append_left _ ho'
  have ho : (a, o) ∈ offers g.augment s := by simp [hsplit]
  cases o with
  | shift next =>
    refine hcell.genuine_shift (fun old hold => hregular.shift_eq next old rfl hold) ?_ hoffer
    exact fun haccept => not_mem_shift_of_accept hg hs (hdone haccept) next ho
  | reduce prod => exact hcell.genuine_reduce (hregular.not_mem rfl) hoffer
  | accept =>
    refine hcell.genuine_accept (hregular.not_mem rfl) (fun next hnext => ?_) hoffer
    exact not_mem_shift_of_accept hg hs ho next (hdone hnext)

/-- If no state has two candidates for a terminal, nothing is recorded. -/
theorem resolutions_eq_nil {t : Tables} (hg : g.WellFormed) (ht : build g = .ok t)
    (hone : ∀ (i : Nat) (s : State), (statesOf g)[i]? = some s → ∀ a o o', Candidate g.augment s a o →
      Candidate g.augment s a o' → o = o') : t.resolutions = [] := by
  rw [List.eq_nil_iff_forall_not_mem]
  intro r hr
  have hs := Array.getElem?_eq_getElem (lt_of_mem_resolutions ht hr)
  obtain ⟨cell, -, hcell⟩ := exists_recorded hg ht hs r.terminal
  obtain ⟨o, ho, o', ho', hne, -⟩ := hcell.between r.verdict
    (List.mem_map.2 ⟨r, List.mem_filter.2 ⟨hr, by simp⟩, rfl⟩)
  rw [mem_offersTo, mem_offers_iff hg hs] at ho ho'
  exact hne (hone _ _ hs _ _ _ ho ho')

/-- What is reported if the tables of a well-formed grammar are not built, as all grammars are that a draft
makes (`Draft.Consistent.wellFormed`). The state exists and so does the terminal, and the two actions are
different candidates that precedence does not choose between. So if there are never two candidates, the
tables are built, and no conflict had to be settled. -/
theorem conflict_genuine (hg : g.WellFormed) :
    (∀ e, build g = .error e → ∃ s, (statesOf g)[e.state]? = some s ∧
      e.terminal < g.terminals.size ∧ ∃ old new, old ≠ new ∧ Candidate g.augment s e.terminal old ∧
        Candidate g.augment s e.terminal new ∧ e.previous = old.action ∧ e.new = new.action ∧
        g.Unsettled e.terminal e.kind old new) ∧
    ((∀ (i : Nat) (s : State), (statesOf g)[i]? = some s → ∀ a o o', Candidate g.augment s a o →
      Candidate g.augment s a o' → o = o') → ∃ t, build g = .ok t ∧ t.resolutions = []) := by
  have hgenuine : ∀ e, build g = .error e → ∃ s, (statesOf g)[e.state]? = some s ∧
      e.terminal < g.terminals.size ∧ ∃ old new, old ≠ new ∧ Candidate g.augment s e.terminal old ∧
        Candidate g.augment s e.terminal new ∧ e.previous = old.action ∧ e.new = new.action ∧
        g.Unsettled e.terminal e.kind old new := by
    intro e he
    obtain ⟨halt, s, done, o, rest, cell, rfl, hs, hsplit, hcell, hoffer⟩ := exists_halt hg he
    obtain ⟨old, hold, hne, hprevious, hnew, hunsettled⟩ := genuine_of_error hg hs hsplit hcell hoffer
    have ho : (halt.terminal, o) ∈ offers g.augment s := by simp [hsplit]
    have hold' : (halt.terminal, old) ∈ offers g.augment s := by
      rw [hsplit]
      exact List.mem_append_left _ hold
    exact ⟨s, hs, lt_of_mem_offers hg hs ho, old, o, hne, (mem_offers_iff hg hs).1 hold',
      (mem_offers_iff hg hs).1 ho, hprevious, hnew, hunsettled.of_augment⟩
  refine ⟨hgenuine, fun hone => ?_⟩
  cases ht : build g with
  | ok t => exact ⟨t, rfl, resolutions_eq_nil hg ht hone⟩
  | error e =>
    obtain ⟨s, hs, -, old, new, hne, hold, hnew, -⟩ := hgenuine e ht
    exact absurd (hone _ _ hs _ _ _ hold hnew) hne

/-- The kind of the conflict that is reported, and its two actions. -/
def conflict? (g : Grammar) : Option (ConflictKind × Action × Action) :=
  match build g with
  | .ok _ => none
  | .error e => some (e.kind, e.previous, e.new)

theorem exists_error_of_conflict? {kind : ConflictKind} {previous new : Action}
    (h : conflict? g = some (kind, previous, new)) :
    ∃ e, build g = .error e ∧ e.kind = kind ∧ e.previous = previous ∧ e.new = new := by
  rw [conflict?] at h
  split at h
  · exact absurd h (by simp)
  · next e he =>
    obtain ⟨rfl, rfl, rfl⟩ := Option.some.inj h
    exact ⟨e, he, rfl, rfl, rfl⟩

/-- Without a group for `x` the productions `E = E x E` and `E = n` have a conflict, and the production
`E = n` alone has none. -/
theorem conflict_genuine_letters : ∃ (g g' : Grammar) (e : Conflict), g.WellFormed ∧
    build g = .error e ∧ e.kind = .shiftReduce ∧ g'.WellFormed ∧
    (∃ s, (statesOf g)[e.state]? = some s ∧
      e.terminal < g.terminals.size ∧ ∃ old new, old ≠ new ∧ Candidate g.augment s e.terminal old ∧
        Candidate g.augment s e.terminal new ∧ e.previous = old.action ∧ e.new = new.action ∧
        g.Unsettled e.terminal e.kind old new) ∧
    ∃ t, build g' = .ok t ∧ t.resolutions = [] := by
  have hd := Draft.declared_additions
  obtain ⟨g, hg, hconflict⟩ := exists_ok
    (x := (Draft.additions.produceAll [⟨0, [.nonterminal 0, .terminal 2, .nonterminal 0], none⟩,
      ⟨0, [.terminal 0], none⟩]).build 0)
    (P := fun g => conflict? g = some (.shiftReduce, .shift 3, .reduce 0)) (by decide +kernel)
  obtain ⟨g', hg', hone⟩ := exists_ok
    (x := (Draft.additions.produceAll [⟨0, [.terminal 0], none⟩]).build 0)
    (P := fun g => ∀ s ∈ (statesOf g).toList, ∀ x ∈ offers g.augment s, ∀ y ∈ offers g.augment s,
      x.1 = y.1 → x.2 = y.2) (by decide +kernel)
  have hwell := (hd.produceAll _).consistent.wellFormed hg
  have hwell' := (hd.produceAll _).consistent.wellFormed hg'
  have hone' : ∀ (i : Nat) (s : State), (statesOf g')[i]? = some s → ∀ a o o',
      Candidate g'.augment s a o → Candidate g'.augment s a o' → o = o' := by
    intro i s hs a o o' ho ho'
    rw [← mem_offers_iff hwell' hs] at ho ho'
    exact hone s (Array.mem_toList_iff.2 (Array.mem_of_getElem? hs)) _ ho _ ho' rfl
  obtain ⟨e, he, hkind, -⟩ := exists_error_of_conflict? hconflict
  exact ⟨g, g', e, hwell, he, hkind, hwell', (conflict_genuine hwell).1 e he,
    (conflict_genuine hwell').2 hone'⟩

end Tables

/-! ### Grammars that no draft makes -/

/-- A terminal that is known by its name only. -/
def Terminal.bare (name : String) : Terminal := ⟨name, none, false, false, none⟩

namespace Grammar

/-- The grammar `S = x`, whose only production is listed twice. -/
def listedTwice : Grammar :=
  { terminals := #[.bare "x", .bare "$end"]
    nts := #[⟨"S", [0, 0]⟩]
    prods := #[⟨0, [.terminal 0], none⟩]
    precs := #[]
    start := 0
    eof := 1
    error := none }

/-- The grammar `S = A x | B x`, `A = a`, in which `B` lists the production of `A`. -/
def listedElsewhere : Grammar :=
  { terminals := #[.bare "x", .bare "a", .bare "$end"]
    nts := #[⟨"S", [0, 1]⟩, ⟨"A", [2]⟩, ⟨"B", [2]⟩]
    prods := #[⟨0, [.nonterminal 1, .terminal 0], none⟩, ⟨0, [.nonterminal 2, .terminal 0], none⟩,
      ⟨1, [.terminal 1], none⟩]
    precs := #[]
    start := 0
    eof := 2
    error := none }

/-- The grammar `S = x | S $end`, which has the end of the input in a production. -/
def endInside : Grammar :=
  { terminals := #[.bare "x", .bare "$end"]
    nts := #[⟨"S", [0, 1]⟩]
    prods := #[⟨0, [.terminal 0], none⟩, ⟨0, [.nonterminal 0, .terminal 1], none⟩]
    precs := #[]
    start := 0
    eof := 1
    error := none }

end Grammar

namespace Tables

/-- A conflict is reported, and its actions are not those of two different offers that precedence does not
choose between. -/
def Spurious (g : Grammar) : Prop :=
  ∃ e, build g = .error e ∧ ¬ ∃ old new : Offer, old ≠ new ∧ e.previous = old.action ∧
    e.new = new.action ∧ g.Unsettled e.terminal e.kind old new

theorem spurious_of_conflict? {g : Grammar} {p : Nat}
    (h : conflict? g = some (.reduceReduce, .reduce p, .reduce p)) : Spurious g := by
  obtain ⟨e, he, -, hprevious, hnew⟩ := exists_error_of_conflict? h
  refine ⟨e, he, ?_⟩
  rintro ⟨old, new, hne, hold, hnew', -⟩
  rw [hprevious, ← hnew, hnew'] at hold
  exact hne (Offer.action_injective hold.symm)

/-- If a production is listed twice, or by two nonterminals, it is reported to be in conflict with itself.
If the end of the input is in a production, to shift it can be in conflict with accepting on it, and this is
reported as if nothing could be shifted. -/
theorem conflict_spurious : (Grammar.listedTwice.Closed ∧ Spurious Grammar.listedTwice) ∧
    (Grammar.listedElsewhere.Closed ∧ Spurious Grammar.listedElsewhere) ∧
    Grammar.endInside.Closed ∧ Spurious Grammar.endInside := by
  have htwice : conflict? Grammar.listedTwice = some (.reduceReduce, .reduce 0, .reduce 0) := by
    decide +kernel
  have helsewhere : conflict? Grammar.listedElsewhere = some (.reduceReduce, .reduce 2, .reduce 2) := by
    decide +kernel
  have hinside : conflict? Grammar.endInside = some (.reduceReduce, .shift 3, .accept) := by
    decide +kernel
  refine ⟨⟨by decide +kernel, spurious_of_conflict? htwice⟩,
    ⟨by decide +kernel, spurious_of_conflict? helsewhere⟩, by decide +kernel, ?_⟩
  obtain ⟨e, he, hkind, hprevious, -⟩ := exists_error_of_conflict? hinside
  refine ⟨e, he, ?_⟩
  rintro ⟨old, new, -, hold, -, hunsettled⟩
  rw [hkind] at hunsettled
  rw [hprevious] at hold
  obtain rfl : old = .shift 3 := Offer.action_injective hold.symm
  exact absurd hunsettled.1 (by simp [Offer.isShift])

end Tables

end ShiftReduce
