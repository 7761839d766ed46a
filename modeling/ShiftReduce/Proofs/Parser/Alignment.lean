import ShiftReduce.Proofs.Parser.Literals

/-!
# Values, literals and rules are aligned

The values of a blueprint are kept by the numbers of the terminals, beside the terminals themselves,
and some terminals are declared only where they are first mentioned. The list of the terminals that
some declarations declare is given here without a blueprint (`Origin.ofDeclarations`): a literal and the
terminal for wrong input count where they come first, every other terminal wherever it comes.

`Blueprint.Aligned` says that a blueprint has these terminals, in this order, each with its own value,
and that its literals are those among them. One more declaration keeps this (`Aligned.declare`),
whatever the numbers in it stand for. When a parser is made, the terminals of the productions without a
value of their own get the one for literals (`fillValues_getElem?`). The main statement is
`Blueprint.tables_aligned`.
-/

namespace ShiftReduce

/-! ### The terminals that are declared -/

/-- How a terminal comes to be declared. -/
inductive Origin (α : Type) where
  | pattern (pattern : String) (value : String → α)
  | literal (text : String)
  | ignored (pattern : String)
  | error

namespace Origin

variable {α : Type} {os : List (Origin α)} {o : Origin α} {text : String}

/-- The value that is given for the terminal. -/
def value : Origin α → Option (String → α)
  | .pattern _ value => some value
  | _ => none

/-- What the terminal is called, whether its matches are skipped, and whether it is a literal. -/
def look : Origin α → String × Bool × Bool
  | .pattern p _ => (p, false, false)
  | .literal text => ("'" ++ text ++ "'", false, true)
  | .ignored p => (p, true, false)
  | .error => ("error", false, false)

/-- Whether the second one stands for the first one as well: a text has one literal, and wrong input
one terminal. -/
def isRepeated : Origin α → Origin α → Bool
  | .literal text, .literal text' => text == text'
  | .error, .error => true
  | _, _ => false

/-- The terminals with one more, unless it is there already. -/
def note (os : List (Origin α)) (o : Origin α) : List (Origin α) :=
  if os.any (isRepeated o) then os else os ++ [o]

end Origin

/-- The terminals that a declaration mentions in order to declare them. -/
def Declaration.origins {α : Type} : Declaration α → List (Origin α)
  | .terminal pattern value => [.pattern pattern value]
  | .ignore pattern => [.ignored pattern]
  | .errorToken => [.error]
  | d => d.literals.map .literal

/-- The terminals that are declared, in the order of their numbers. -/
def Origin.ofDeclarations {α : Type} (ds : List (Declaration α)) : List (Origin α) :=
  (ds.flatMap Declaration.origins).foldl note []

namespace Origin

variable {α : Type} {os : List (Origin α)} {o : Origin α} {text : String}

theorem eq_of_isRepeated {o' : Origin α} (h : isRepeated o o' = true) : o' = o := by
  cases o with
  | literal text =>
    cases o' with
    | literal text' => rw [beq_iff_eq.1 h]
    | pattern | ignored | error => exact absurd h (by simp [isRepeated])
  | error =>
    cases o' with
    | error => rfl
    | pattern | ignored | literal => exact absurd h (by simp [isRepeated])
  | pattern | ignored => exact absurd h (by simp [isRepeated])

theorem look_eq_literal_iff : o.look.2.2 = true ↔ ∃ text, o = .literal text := by
  cases o <;> simp [look]

theorem isRepeated_literal_self (text : String) :
    isRepeated (.literal text : Origin α) (.literal text) = true := beq_self_eq_true text

theorem note_of_mem (hrepeated : isRepeated o o = true) (h : o ∈ os) : note os o = os :=
  if_pos (List.any_eq_true.2 ⟨o, h, hrepeated⟩)

theorem note_of_notMem (h : o ∉ os) : note os o = os ++ [o] := by
  refine if_neg fun hany => h ?_
  obtain ⟨o', ho', hsame⟩ := List.any_eq_true.1 hany
  rwa [← eq_of_isRepeated hsame]

/-- What cannot be repeated counts wherever it comes. -/
theorem note_of_isRepeated_eq_false (h : isRepeated o o = false) : note os o = os ++ [o] := by
  refine if_neg fun hany => ?_
  obtain ⟨o', -, hsame⟩ := List.any_eq_true.1 hany
  rw [eq_of_isRepeated hsame, h] at hsame
  exact absurd hsame Bool.false_ne_true

/-! ### Literals among the terminals -/

theorem literal_mem_note : .literal text ∈ note os o ↔ .literal text ∈ os ∨ o = .literal text := by
  rw [note]
  split
  · next hany =>
    refine (or_iff_left_of_imp ?_).symm
    rintro rfl
    obtain ⟨o, ho, hsame⟩ := List.any_eq_true.1 hany
    rwa [← eq_of_isRepeated hsame]
  · rw [List.mem_append, List.mem_singleton, eq_comm (a := o)]

theorem literal_mem_foldl_note {mentioned : List (Origin α)} :
    .literal text ∈ mentioned.foldl note os ↔ .literal text ∈ os ∨ .literal text ∈ mentioned := by
  induction mentioned generalizing os with
  | nil => simp
  | cons o mentioned ih =>
    rw [List.foldl_cons, ih, literal_mem_note, List.mem_cons, or_assoc, eq_comm (a := o)]

theorem literal_mem_origins {d : Declaration α} : .literal text ∈ d.origins ↔ text ∈ d.literals := by
  cases d with
  | terminal | ignore | errorToken => simp [Declaration.origins, Declaration.literals]
  | literal | production | precGroup | nonterminal | setRule | setOnError | setPrec
  | setLiteralValue | setRuntime | setEscapeLiterals | setStart => simp [Declaration.origins]

/-- The literals are those of the texts that are mentioned. -/
theorem literal_mem_ofDeclarations {ds : List (Declaration α)} :
    .literal text ∈ ofDeclarations ds ↔ ∃ d ∈ ds, text ∈ d.literals := by
  rw [ofDeclarations, literal_mem_foldl_note, or_iff_right List.not_mem_nil, List.mem_flatMap]
  exact exists_congr fun d => and_congr_right fun _ => literal_mem_origins

end Origin

/-! ### What the declarations keep -/

namespace Blueprint

variable {α : Type} {b b' : Blueprint α} {os : List (Origin α)} {o : Origin α}

/-- The blueprint has the given terminals, each with the value that is given for it, and its literals
and its terminal for wrong input are those among them. -/
structure Aligned (b : Blueprint α) (os : List (Origin α)) : Prop where
  values : b.values.toList = os.map Origin.value
  terminals : b.draft.terminals.toList.map (fun t => (t.name, t.skip, t.literal)) = os.map Origin.look
  literals : ∀ text t, b.literals.lookup text = some t ↔ os[t]? = some (.literal text)
  error : ∀ t, b.draft.error = some t ↔ os[t]? = some .error

theorem aligned_empty : Aligned (empty : Blueprint α) [] where
  values := rfl
  terminals := rfl
  literals text t := by simp [empty]
  error t := by simp [empty, Draft.empty]

theorem Aligned.size (h : b.Aligned os) : b.draft.terminals.size = os.length := by
  have := congrArg List.length h.terminals
  rwa [List.length_map, List.length_map, Array.length_toList] at this

theorem Aligned.getElem?_values (h : b.Aligned os) (t : Nat) :
    b.values[t]? = os[t]?.map Origin.value := by
  rw [← Array.getElem?_toList, h.values, List.getElem?_map]

/-- The terminals that are literals are those of the texts. -/
theorem Aligned.isLiteral_iff (h : b.Aligned os) {t : Nat} :
    (∃ terminal, b.draft.terminals[t]? = some terminal ∧ terminal.literal = true) ↔
      ∃ text, os[t]? = some (.literal text) := by
  have hlook : b.draft.terminals[t]?.map (fun t => (t.name, t.skip, t.literal)) =
      os[t]?.map Origin.look := by
    rw [← Array.getElem?_toList, ← List.getElem?_map, ← List.getElem?_map, h.terminals]
  constructor
  · rintro ⟨terminal, hget, hliteral⟩
    rw [hget, Option.map_some] at hlook
    obtain ⟨o, ho, heq⟩ := Option.map_eq_some_iff.1 hlook.symm
    have ho' : o.look.2.2 = true := by rw [heq, hliteral]
    obtain ⟨text, rfl⟩ := Origin.look_eq_literal_iff.1 ho'
    exact ⟨text, ho⟩
  · rintro ⟨text, ho⟩
    rw [ho, Option.map_some] at hlook
    obtain ⟨terminal, hget, heq⟩ := Option.map_eq_some_iff.1 hlook
    exact ⟨terminal, hget, (Prod.mk.inj (Prod.mk.inj heq).2).2⟩

/-- Only the terminals, the values and the literals matter. -/
theorem Aligned.congr (h : b.Aligned os) (hvalues : b'.values = b.values)
    (hterminals : b'.draft.terminals = b.draft.terminals) (herror : b'.draft.error = b.draft.error)
    (hliterals : b'.literals = b.literals) : b'.Aligned os where
  values := by rw [hvalues, h.values]
  terminals := by rw [hterminals, h.terminals]
  literals := by
    rw [hliterals]
    exact h.literals
  error := by
    rw [herror]
    exact h.error

theorem getElem?_concat_eq_some_iff {t : Nat} {o' : Origin α} :
    (os ++ [o])[t]? = some o' ↔ os[t]? = some o' ∨ o = o' ∧ t = os.length := by
  rw [List.getElem?_append]
  split
  · next hlt =>
    refine (or_iff_left ?_).symm
    rintro ⟨-, rfl⟩
    exact Nat.lt_irrefl _ hlt
  · next hge =>
    rw [List.getElem?_eq_none (Nat.le_of_not_lt hge), List.getElem?_singleton]
    split
    · next hzero =>
      have : t = os.length := by omega
      simp [this]
    · next hpos =>
      have : t ≠ os.length := by omega
      simp [this]

/-- One more terminal, with one more value. -/
theorem Aligned.push (h : b.Aligned os) (terminal : Terminal)
    (hlook : (terminal.name, terminal.skip, terminal.literal) = o.look)
    (hvalues : b'.values = b.values.push o.value)
    (hterminals : b'.draft.terminals = b.draft.terminals.push terminal)
    (hliterals : ∀ text t, b'.literals.lookup text = some t ↔
      b.literals.lookup text = some t ∨ o = .literal text ∧ t = os.length)
    (herror : ∀ t, b'.draft.error = some t ↔
      b.draft.error = some t ∨ o = .error ∧ t = os.length) : b'.Aligned (os ++ [o]) where
  values := by rw [hvalues, Array.toList_push, h.values, List.map_append, List.map_singleton]
  terminals := by
    rw [hterminals, Array.toList_push, List.map_append, List.map_append, h.terminals,
      List.map_singleton, List.map_singleton, hlook]
  literals text t := by rw [hliterals, h.literals, getElem?_concat_eq_some_iff]
  error t := by rw [herror, h.error, getElem?_concat_eq_some_iff]

theorem readPattern_values (b : Blueprint α) (pattern : String) :
    (b.readPattern pattern).1.values = b.values := by
  rw [readPattern]
  split <;> rfl

theorem Aligned.readPattern (h : b.Aligned os) (pattern : String) :
    (b.readPattern pattern).1.Aligned os :=
  h.congr (b.readPattern_values pattern) (by rw [readPattern_draft]) (by rw [readPattern_draft])
    (b.readPattern_literals pattern).1

theorem Aligned.terminal (h : b.Aligned os) (pattern : String) (value : String → α) :
    (b.terminal pattern value).1.Aligned (os ++ [.pattern pattern value]) := by
  refine (h.readPattern pattern).push
    ⟨pattern, some (b.readPattern pattern).2, false, false, none⟩ rfl rfl rfl ?_ ?_
  · intro text t
    exact (or_iff_left (by simp)).symm
  · intro t
    exact (or_iff_left (by simp)).symm

theorem Aligned.ignore (h : b.Aligned os) (pattern : String) :
    (b.ignore pattern).Aligned (os ++ [.ignored pattern]) := by
  refine (h.readPattern pattern).push
    ⟨pattern, some (b.readPattern pattern).2, true, false, none⟩ rfl rfl rfl ?_ ?_
  · intro text t
    exact (or_iff_left (by simp)).symm
  · intro t
    exact (or_iff_left (by simp)).symm

/-- A literal is declared exactly if its text has not been mentioned. -/
theorem Aligned.literal (h : b.Aligned os) (text : String) :
    (b.literal text).1.Aligned (Origin.note os (.literal text)) := by
  cases hlookup : b.literals.lookup text with
  | some t =>
    have hmem : .literal text ∈ os := List.mem_of_getElem? ((h.literals text t).1 hlookup)
    have hsame : (b.literal text).1 = b := by rw [Blueprint.literal, hlookup]
    rwa [hsame, Origin.note_of_mem (Origin.isRepeated_literal_self text) hmem]
  | none =>
    have hnew : .literal text ∉ os := by
      intro hmem
      obtain ⟨t, ht⟩ := List.mem_iff_getElem?.1 hmem
      rw [(h.literals text t).2 ht] at hlookup
      exact absurd hlookup (by simp)
    cases hread : b.readPattern (if b.settings.escapeLiterals then Regex.escape text else text) with
    | mk b₀ regex =>
      have h₀ : b₀.Aligned os := by
        have := h.readPattern (if b.settings.escapeLiterals then Regex.escape text else text)
        rwa [hread] at this
      have hlookup₀ : b₀.literals.lookup text = none := by
        refine Option.eq_none_iff_forall_ne_some.2 fun t ht => ?_
        exact hnew (List.mem_of_getElem? ((h₀.literals text t).1 ht))
      rw [b.literal_of_lookup_eq_none hlookup hread, Origin.note_of_notMem hnew]
      refine h₀.push ⟨"'" ++ text ++ "'", some regex, false, true, none⟩ rfl rfl rfl
        ?_ ?_
      · intro text' t
        rw [List.lookup_append, List.lookup_cons, List.lookup_nil, h₀.size]
        by_cases heq : text' = text
        · subst heq
          rw [hlookup₀]
          simp [eq_comm]
        · have hne : (text' == text) = false := beq_eq_false_iff_ne.2 heq
          have hne' : ¬ text = text' := fun h => heq h.symm
          simp [hne, hne']
      · intro t
        exact (or_iff_left (by simp)).symm

/-- The terminal for wrong input is declared exactly if it has not been. -/
theorem Aligned.errorToken (h : b.Aligned os) : b.errorToken.1.Aligned (Origin.note os .error) := by
  cases herror : b.draft.error with
  | some t =>
    have hmem : .error ∈ os := List.mem_of_getElem? ((h.error t).1 herror)
    have hdraft : b.draft.errorTerminal.1 = b.draft := by rw [Draft.errorTerminal, herror]
    rw [Origin.note_of_mem rfl hmem]
    refine h.congr ?_ (congrArg Draft.terminals hdraft) (congrArg Draft.error hdraft) rfl
    change (if b.draft.terminals.size < b.draft.errorTerminal.1.terminals.size then
      b.values.push none else b.values) = b.values
    rw [hdraft, if_neg (Nat.lt_irrefl _)]
  | none =>
    have hnew : .error ∉ os := by
      intro hmem
      obtain ⟨t, ht⟩ := List.mem_iff_getElem?.1 hmem
      rw [(h.error t).2 ht] at herror
      exact absurd herror (by simp)
    have hdraft : b.draft.errorTerminal.1 =
        { b.draft with
          terminals := b.draft.terminals.push ⟨"error", none, false, false, none⟩
          error := some b.draft.terminals.size } := by
      rw [Draft.errorTerminal, herror]
      rfl
    rw [Origin.note_of_notMem hnew]
    refine h.push ⟨"error", none, false, false, none⟩ rfl ?_
      (congrArg Draft.terminals hdraft) ?_ ?_
    · change (if b.draft.terminals.size < b.draft.errorTerminal.1.terminals.size then
        b.values.push none else b.values) = b.values.push none
      rw [hdraft, if_pos (by simp)]
    · intro text t
      exact (or_iff_left (by simp)).symm
    · intro t
      change b.draft.errorTerminal.1.error = some t ↔ _
      rw [hdraft, herror, h.size]
      simp [eq_comm]

theorem Aligned.useTerminal (h : b.Aligned os) (use : TerminalUse) :
    (b.useTerminal use).1.Aligned ((use.literals.map .literal).foldl Origin.note os) := by
  cases use with
  | declared t => exact h
  | literal text => exact h.literal text

theorem Aligned.useTerminals (h : b.Aligned os) (uses : List TerminalUse) :
    (b.useTerminals uses).1.Aligned
      (((uses.flatMap TerminalUse.literals).map .literal).foldl Origin.note os) := by
  induction uses generalizing b os with
  | nil => exact h
  | cons use uses ih =>
    rw [List.flatMap_cons, List.map_append, List.foldl_append]
    exact ih (h.useTerminal use)

theorem Aligned.useParts (h : b.Aligned os) (parts : List Part) :
    (b.useParts parts).1.Aligned
      (((parts.flatMap Part.literals).map .literal).foldl Origin.note os) := by
  induction parts generalizing b os with
  | nil => exact h
  | cons part parts ih =>
    rw [List.flatMap_cons, List.map_append, List.foldl_append]
    cases part with
    | nonterminal n => exact ih h
    | terminal use => exact ih (h.useTerminal use)

/-- One more declaration declares the terminals that it mentions, each with its value. -/
theorem Aligned.declare (h : b.Aligned os) (d : Declaration α) :
    (b.declare d).Aligned (d.origins.foldl Origin.note os) := by
  cases d with
  | terminal pattern value =>
    rw [Declaration.origins, List.foldl_cons, List.foldl_nil, Origin.note_of_isRepeated_eq_false rfl]
    exact h.terminal pattern value
  | literal text => exact h.literal text
  | ignore pattern =>
    rw [Declaration.origins, List.foldl_cons, List.foldl_nil, Origin.note_of_isRepeated_eq_false rfl]
    exact h.ignore pattern
  | errorToken => exact h.errorToken
  | production nt parts => exact (h.useParts parts).congr rfl rfl rfl rfl
  | precGroup assoc terminals => exact (h.useTerminals terminals).congr rfl rfl rfl rfl
  | nonterminal | setRule | setOnError | setPrec | setLiteralValue | setRuntime | setEscapeLiterals
  | setStart => exact h.congr rfl rfl rfl rfl

theorem Aligned.declareAll (h : b.Aligned os) (ds : List (Declaration α)) :
    (b.declareAll ds).Aligned ((ds.flatMap Declaration.origins).foldl Origin.note os) := by
  induction ds generalizing b os with
  | nil => exact h
  | cons d ds ih =>
    rw [List.flatMap_cons, List.foldl_append]
    exact ih (h.declare d)

theorem aligned_declareAll (ds : List (Declaration α)) :
    (declareAll empty ds).Aligned (Origin.ofDeclarations ds) :=
  aligned_empty.declareAll ds

/-! ### Values of a parser -/

/-- The terminals that are used get the value for literals, unless they have one of their own, and no
other value changes. -/
theorem fillValues_getElem? {g : Grammar} {literalValue : Option (String → α)} {ts : List Nat}
    {values values' : Array (Option (String → α))}
    (h : fillValues g literalValue ts values = .ok values') (t : Nat) :
    values'[t]? = values[t]?.map fun v => if t ∈ ts then v.or literalValue else v := by
  induction ts generalizing values with
  | nil =>
    obtain rfl : values = values' := Except.ok.inj h
    simp
  | cons u ts ih =>
    rw [fillValues.eq_def] at h
    simp only at h
    split at h
    · next value hvalue =>
      rw [ih h]
      refine Option.map_congr fun v hv => ?_
      by_cases htu : t = u
      · -- the terminal has a value, which stays
        rw [← htu, hv] at hvalue
        obtain rfl : v = some value := hvalue
        simp
      · simp [htu]
    · next value hnone =>
      rw [ih h, Array.getElem?_setIfInBounds]
      by_cases htu : u = t
      · subst htu
        rw [if_pos rfl]
        by_cases hlt : u < values.size
        · rw [Array.getElem?_eq_getElem hlt] at hnone ⊢
          have hnone : values[u] = none := hnone
          simp [hlt, hnone]
        · rw [if_neg hlt, Array.getElem?_eq_none (Nat.le_of_not_lt hlt), Option.map_none,
            Option.map_none]
      · simp [htu, Ne.symm htu]
    · exact absurd h (by simp)

theorem declared_declareAll (h : b.Declared) (ds : List (Declaration α)) :
    (b.declareAll ds).Declared := by
  induction ds generalizing b with
  | nil => exact h
  | cons d ds ih =>
    refine ih ?_
    cases d with
    | terminal pattern value => exact h.terminal pattern value
    | literal text => exact h.literal text
    | ignore pattern => exact h.ignore pattern
    | errorToken => exact h.errorToken
    | nonterminal name => exact h.nonterminal name
    | production nt parts => exact h.production nt parts
    | setRule prod rule => exact h.setRule prod rule
    | setOnError prod handler => exact h.setOnError prod handler
    | setPrec prod group => exact h.setPrec prod group
    | precGroup assoc terminals => exact h.precGroup assoc terminals
    | setLiteralValue value => exact h.setLiteralValue value
    | setRuntime runtime => exact h.setRuntime runtime
    | setEscapeLiterals escape => exact h.setEscapeLiterals escape
    | setStart nt => exact h.setStart nt

/-- In a parser every terminal of a production has a value: its own, or else the one for literals. -/
theorem Aligned.exists_value (h : b.Aligned os) (hb : b.Declared) {p : Parser α}
    (hp : b.build = .ok p) {prod t : Nat} (ht : .terminal t ∈ p.grammar.rhs prod) :
    ∃ o f, os[t]? = some o ∧ o.value.or b.literalValue = some f ∧ p.values[t]? = some (some f) := by
  have hsome := (hb.proper hp).values prod t ht
  obtain ⟨-, values, -, -, hvalues, -, -, rfl, -⟩ := build_eq_ok hp
  have hfill := fillValues_getElem? hvalues t
  simp only [h.getElem?_values, if_pos (mem_usedTerminals ht), Option.map_map] at hfill
  cases ho : os[t]? with
  | none =>
    rw [hfill, ho] at hsome
    exact absurd hsome (by simp)
  | some o =>
    rw [ho, Option.map_some] at hfill
    rw [hfill] at hsome
    obtain ⟨f, hf⟩ := Option.isSome_iff_exists.1 hsome
    have hf : o.value.or b.literalValue = some f := hf
    exact ⟨o, f, rfl, hf, hfill.trans (congrArg some hf)⟩

/-- The tables of a blueprint stay aligned, whatever is declared. There is one value for each terminal
and one rule for each production. The terminals are those that the declarations declare, in order, and
the value with the number of a terminal is the one that was given for it: none for a literal, an ignored
pattern and the terminal for wrong input. The literals are a one-to-one map from the texts that are
mentioned to the literal terminals. In a parser that is made of the blueprint every terminal of a
production has a value: its own, or else the one for literals. -/
theorem tables_aligned (ds : List (Declaration α)) :
    ((declareAll empty ds).values.size = (declareAll empty ds).draft.terminals.size ∧
      (declareAll empty ds).rules.size = (declareAll empty ds).draft.prods.size) ∧
    ((declareAll empty ds).draft.terminals.toList.map (fun t => (t.name, t.skip, t.literal)) =
        (Origin.ofDeclarations ds).map Origin.look ∧
      (declareAll empty ds).values.toList = (Origin.ofDeclarations ds).map Origin.value) ∧
    ((∀ text, (∃ t, (declareAll empty ds).literals.lookup text = some t) ↔
        ∃ d ∈ ds, text ∈ d.literals) ∧
      (∀ t, (∃ text, (declareAll empty ds).literals.lookup text = some t) ↔
        ∃ terminal, (declareAll empty ds).draft.terminals[t]? = some terminal ∧
          terminal.literal = true) ∧
      (∀ text t, (declareAll empty ds).literals.lookup text = some t →
        (Origin.ofDeclarations ds)[t]? = some (.literal text)) ∧
      ∀ text text' t, (declareAll empty ds).literals.lookup text = some t →
        (declareAll empty ds).literals.lookup text' = some t → text = text') ∧
    ∀ p, (declareAll empty ds).build = .ok p → ∀ prod t, .terminal t ∈ p.grammar.rhs prod →
      ∃ o f, (Origin.ofDeclarations ds)[t]? = some o ∧
        o.value.or (declareAll empty ds).literalValue = some f ∧ p.values[t]? = some (some f) := by
  have hdeclared := declared_declareAll .empty ds
  have haligned := aligned_declareAll ds
  refine ⟨⟨hdeclared.consistent.values, hdeclared.consistent.rules⟩,
    ⟨haligned.terminals, haligned.values⟩, ⟨?_, ?_, ?_, ?_⟩, ?_⟩
  · intro text
    rw [← Origin.literal_mem_ofDeclarations, List.mem_iff_getElem?]
    exact exists_congr (haligned.literals text)
  · intro t
    exact (exists_congr fun text => haligned.literals text t).trans haligned.isLiteral_iff.symm
  · intro text t
    exact (haligned.literals text t).1
  · intro text text' t ht ht'
    have heq := ((haligned.literals text t).1 ht).symm.trans ((haligned.literals text' t).1 ht')
    exact Origin.literal.inj (Option.some.inj heq)
  · intro p hp prod t
    exact haligned.exists_value hdeclared hp

end Blueprint

/-- Declarations that mention a literal and the terminal for wrong input twice, a literal that is first
mentioned in a group, and an ignored pattern by a number of its own. -/
def Declaration.repeats : List (Declaration String) :=
  [.errorToken, .terminal "[0-9]+" id, .literal "+", .errorToken, .ignore " ",
    .precGroup .left [.literal "-", .literal "+"], .setLiteralValue id, .nonterminal "E",
    .production 0 [.nonterminal 0, .terminal (.literal "+"), .nonterminal 0],
    .production 0 [.nonterminal 0, .terminal (.literal "-"), .nonterminal 0],
    .production 0 [.terminal (.declared 1)], .production 0 [.terminal (.declared 3)],
    .production 0 [.terminal (.declared 0)]]

theorem Blueprint.tables_aligned_repeats :
    (declareAll empty Declaration.repeats).values.size = 5 ∧
    (declareAll empty Declaration.repeats).literals.lookup "-" = some 4 ∧
    ∃ p f, (declareAll empty Declaration.repeats).build = .ok p ∧ p.values[4]? = some (some f) := by
  obtain ⟨-, ⟨-, hvalues⟩, -, hparser⟩ := Blueprint.tables_aligned Declaration.repeats
  obtain ⟨p, hp, hused⟩ := Blueprint.exists_build (b := declareAll empty Declaration.repeats)
    (P := fun p => .terminal 4 ∈ p.grammar.rhs 1) (by decide +kernel)
  obtain ⟨o, f, -, -, hf⟩ := hparser p hp 1 4 hused
  refine ⟨?_, by decide +kernel, p, f, hp, hf⟩
  rw [← Array.length_toList, hvalues]
  rfl

end ShiftReduce
