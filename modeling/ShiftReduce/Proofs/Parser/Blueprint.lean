import ShiftReduce.Parser.Blueprint
import ShiftReduce.Proofs.Grammar.Declared
import ShiftReduce.Proofs.Lalr.Tables
import ShiftReduce.Proofs.Lexer.MaximalMunch

/-!
# Parsers that are built

`Blueprint.Declared` says that a blueprint was made by declarations. What they keep is
`Blueprint.Consistent`, and a parser that is made of such a blueprint is proper (`Parser.Proper`):
its grammar is well formed, its tables and its lexer are those of the grammar, its lexer finds
neither the end of the input nor the terminal for wrong input in a text, and it knows what to do with
every terminal and every production of the grammar.
-/

namespace ShiftReduce

namespace Blueprint

variable {α : Type} {b : Blueprint α}

/-- The blueprints that can be made by declarations. -/
inductive Declared : Blueprint α → Prop
  | empty : Declared empty
  | terminal {b : Blueprint α} (h : Declared b) (pattern : String) (value : String → α) :
    Declared (b.terminal pattern value).1
  | literal {b : Blueprint α} (h : Declared b) (text : String) : Declared (b.literal text).1
  | ignore {b : Blueprint α} (h : Declared b) (pattern : String) : Declared (b.ignore pattern)
  | errorToken {b : Blueprint α} (h : Declared b) : Declared b.errorToken.1
  | nonterminal {b : Blueprint α} (h : Declared b) (name : String) :
    Declared (b.nonterminal name).1
  | production {b : Blueprint α} (h : Declared b) (nt : Nat) (parts : List Part) :
    Declared (b.production nt parts).1
  | setRule {b : Blueprint α} (h : Declared b) (prod : Nat) (rule : Rule α) :
    Declared (b.setRule prod rule)
  | setOnError {b : Blueprint α} (h : Declared b) (prod : Nat)
    (handler : ParseError → List α → α) : Declared (b.setOnError prod handler)
  | setPrec {b : Blueprint α} (h : Declared b) (prod group : Nat) : Declared (b.setPrec prod group)
  | precGroup {b : Blueprint α} (h : Declared b) (assoc : Assoc) (terminals : List TerminalUse) :
    Declared (b.precGroup assoc terminals).1
  | setLiteralValue {b : Blueprint α} (h : Declared b) (value : String → α) :
    Declared (b.setLiteralValue value)
  | setRuntime {b : Blueprint α} (h : Declared b) (runtime : Runtime) :
    Declared (b.setRuntime runtime)
  | setEscapeLiterals {b : Blueprint α} (h : Declared b) (escape : Bool) :
    Declared (b.setEscapeLiterals escape)
  | setStart {b : Blueprint α} (h : Declared b) (nt : Nat) : Declared (b.setStart nt)

/-- What the declarations keep: the draft is consistent, every terminal has its place among the
values and every production its rule. -/
structure Consistent (b : Blueprint α) : Prop where
  draft : b.draft.Consistent
  values : b.values.size = b.draft.terminals.size
  rules : b.rules.size = b.draft.prods.size

theorem Consistent.readPattern (h : b.Consistent) (pattern : String) :
    (b.readPattern pattern).1.Consistent := by
  rw [Blueprint.readPattern]
  split
  · exact h
  · exact ⟨h.draft, h.values, h.rules⟩

/-- One more terminal, with its place among the values. -/
theorem Consistent.pushTerminal (h : b.Consistent) (t : Terminal) (value : Option (String → α)) :
    Consistent { b with draft := (b.draft.pushTerminal t).1, values := b.values.push value } where
  draft := h.draft.pushTerminal t
  values := by
    rw [Array.size_push, h.values]
    exact (Array.size_push _).symm
  rules := h.rules

theorem Consistent.literal (h : b.Consistent) (text : String) : (b.literal text).1.Consistent := by
  rw [Blueprint.literal]
  split
  · exact h
  · have := (h.readPattern (if b.settings.escapeLiterals then Regex.escape text else text))
    have := this.pushTerminal ⟨"'" ++ text ++ "'", some (b.readPattern
      (if b.settings.escapeLiterals then Regex.escape text else text)).2, false, true, none⟩ none
    exact ⟨this.draft, this.values, this.rules⟩

theorem Consistent.errorToken (h : b.Consistent) : b.errorToken.1.Consistent := by
  obtain ⟨hprods, hsize⟩ := b.draft.size_errorTerminal
  refine { draft := h.draft.errorTerminal, values := ?_, rules := ?_ }
  · change (if b.draft.terminals.size < b.draft.errorTerminal.1.terminals.size then
      b.values.push none else b.values).size = b.draft.errorTerminal.1.terminals.size
    split
    · rw [Array.size_push, h.values]
      omega
    · rw [h.values]
      omega
  · change b.rules.size = b.draft.errorTerminal.1.prods.size
    rw [hprods, h.rules]

theorem Consistent.useTerminal (h : b.Consistent) (use : TerminalUse) :
    (b.useTerminal use).1.Consistent := by
  cases use with
  | declared t => exact h
  | literal text => exact h.literal text

theorem Consistent.usePart (h : b.Consistent) (part : Part) : (b.usePart part).1.Consistent := by
  cases part with
  | nonterminal n => exact h
  | terminal use => exact h.useTerminal use

theorem Consistent.useParts (h : b.Consistent) (parts : List Part) :
    (b.useParts parts).1.Consistent := by
  induction parts generalizing b with
  | nil => exact h
  | cons part parts ih => exact ih (h.usePart part)

theorem Consistent.useTerminals (h : b.Consistent) (uses : List TerminalUse) :
    (b.useTerminals uses).1.Consistent := by
  induction uses generalizing b with
  | nil => exact h
  | cons use uses ih => exact ih (h.useTerminal use)

/-- Declarations keep a blueprint consistent. -/
theorem Declared.consistent (h : b.Declared) : b.Consistent := by
  induction h with
  | empty => exact ⟨Draft.consistent_empty, rfl, rfl⟩
  | terminal _ pattern value ih =>
    exact (ih.readPattern pattern).pushTerminal ⟨pattern, some _, false, false, none⟩ (some value)
  | literal _ text ih => exact ih.literal text
  | ignore _ pattern ih =>
    exact (ih.readPattern pattern).pushTerminal ⟨pattern, some _, true, false, none⟩ none
  | errorToken _ ih => exact ih.errorToken
  | nonterminal _ name ih => exact ⟨ih.draft.nonterminal name, ih.values, ih.rules⟩
  | production _ nt parts ih =>
    have := ih.useParts parts
    refine ⟨this.draft.production nt _, this.values, ?_⟩
    simp only [Blueprint.production, Draft.production, Array.size_push, this.rules]
  | setRule _ prod rule ih =>
    exact ⟨ih.draft, ih.values, Array.size_modify.trans ih.rules⟩
  | setOnError _ prod handler ih =>
    exact ⟨ih.draft, ih.values, Array.size_modify.trans ih.rules⟩
  | setPrec _ prod group ih =>
    exact ⟨ih.draft.setPrec prod group, ih.values, ih.rules.trans Array.size_modify.symm⟩
  | precGroup _ assoc terminals ih =>
    have := ih.useTerminals terminals
    exact ⟨this.draft.precGroup assoc _, this.values, this.rules⟩
  | setLiteralValue _ _ ih => exact ⟨ih.draft, ih.values, ih.rules⟩
  | setRuntime _ _ ih => exact ⟨ih.draft, ih.values, ih.rules⟩
  | setEscapeLiterals _ _ ih => exact ⟨ih.draft, ih.values, ih.rules⟩
  | setStart _ _ ih => exact ⟨ih.draft, ih.values, ih.rules⟩

/-! ### The draft -/

theorem readPattern_draft (b : Blueprint α) (pattern : String) :
    (b.readPattern pattern).1.draft = b.draft := by
  rw [Blueprint.readPattern]
  split <;> rfl

theorem declared_literal (h : b.draft.Declared) (text : String) : (b.literal text).1.draft.Declared := by
  rw [Blueprint.literal]
  split
  · exact h
  · rw [← b.readPattern_draft] at h
    exact h.literal _ _

theorem declared_useTerminal (h : b.draft.Declared) (use : TerminalUse) :
    (b.useTerminal use).1.draft.Declared := by
  cases use with
  | declared t => exact h
  | literal text => exact declared_literal h text

theorem declared_useTerminals (h : b.draft.Declared) (uses : List TerminalUse) :
    (b.useTerminals uses).1.draft.Declared := by
  induction uses generalizing b with
  | nil => exact h
  | cons use uses ih => exact ih (declared_useTerminal h use)

theorem declared_useParts (h : b.draft.Declared) (parts : List Part) :
    (b.useParts parts).1.draft.Declared := by
  induction parts generalizing b with
  | nil => exact h
  | cons part parts ih =>
    refine ih ?_
    cases part with
    | nonterminal n => exact h
    | terminal use => exact declared_useTerminal h use

/-- The draft of a blueprint is made by declarations, too. -/
theorem Declared.draft (h : b.Declared) : b.draft.Declared := by
  induction h with
  | empty => exact .empty
  | @terminal b _ pattern value ih =>
    rw [← b.readPattern_draft pattern] at ih
    exact ih.terminal _ _ _
  | literal _ text ih => exact declared_literal ih text
  | @ignore b _ pattern ih =>
    rw [← b.readPattern_draft pattern] at ih
    exact ih.terminal _ _ _
  | errorToken _ ih => exact ih.errorTerminal
  | nonterminal _ name ih => exact ih.nonterminal name
  | production _ nt parts ih => exact (declared_useParts ih parts).production _ _
  | setRule _ prod rule ih => exact ih
  | setOnError _ prod handler ih => exact ih
  | setPrec _ prod group ih => exact ih.setPrec _ _
  | precGroup _ assoc terminals ih => exact (declared_useTerminals ih terminals).precGroup _ _
  | setLiteralValue _ _ ih => exact ih
  | setRuntime _ _ ih => exact ih
  | setEscapeLiterals _ _ ih => exact ih
  | setStart _ _ ih => exact ih

/-! ### Values -/

/-- Every terminal that is asked for gets a way of making values, and none loses it. -/
theorem fillValues_spec {g : Grammar} {literalValue : Option (String → α)} {ts : List Nat}
    {values values' : Array (Option (String → α))}
    (h : fillValues g literalValue ts values = .ok values') :
    values'.size = values.size ∧
    (∀ t : Nat, (values[t]?.bind id).isSome → (values'[t]?.bind id).isSome) ∧
    ∀ t ∈ ts, t < values.size → (values'[t]?.bind id).isSome := by
  induction ts generalizing values with
  | nil =>
    obtain rfl : values = values' := Except.ok.inj h
    exact ⟨rfl, fun _ ht => ht, fun t ht => absurd ht List.not_mem_nil⟩
  | cons u ts ih =>
    rw [fillValues.eq_def] at h
    simp only at h
    split at h
    · next value hvalue =>
      obtain ⟨hsize, hkept, hfilled⟩ := ih h
      refine ⟨hsize, hkept, ?_⟩
      intro t ht hlt
      rcases List.mem_cons.1 ht with rfl | ht
      · exact hkept t (by rw [hvalue]; rfl)
      · exact hfilled t ht hlt
    · next value hnone =>
      obtain ⟨hsize, hkept, hfilled⟩ := ih h
      rw [Array.size_setIfInBounds] at hsize hfilled
      refine ⟨hsize, ?_, ?_⟩
      · intro t ht
        refine hkept t ?_
        rw [Array.getElem?_setIfInBounds]
        split
        · next heq =>
          rw [← heq, hnone] at ht
          exact absurd ht (by simp)
        · exact ht
      · intro t ht hlt
        rcases List.mem_cons.1 ht with rfl | ht
        · refine hkept t ?_
          rw [Array.getElem?_setIfInBounds, if_pos rfl, if_pos hlt]
          rfl
        · exact hfilled t ht hlt
    · exact absurd h (by simp)

theorem mem_usedTerminals {g : Grammar} {p t : Nat} (h : .terminal t ∈ g.rhs p) :
    t ∈ usedTerminals g := by
  have hlt := Grammar.lt_size_of_mem_rhs h
  have hget := Array.getElem?_eq_getElem hlt
  rw [Grammar.rhs_of_getElem? hget] at h
  refine List.mem_flatMap.2 ⟨_, Array.mem_toList_iff.2 (Array.getElem_mem hlt), ?_⟩
  exact List.mem_filterMap.2 ⟨_, h, rfl⟩

/-- If no rule is found fault with, every rule goes with its production. -/
theorem ruleFault_of_firstRuleFault {g : Grammar} {rules : Array (ProdRule α)}
    (h : firstRuleFault g rules = none) {prod : Nat} {r : ProdRule α} (hr : rules[prod]? = some r) :
    ruleFault g prod r.rule = none := by
  rw [firstRuleFault, List.findSome?_eq_none_iff] at h
  exact h (r, prod) (List.mem_zipIdx_iff_getElem?.2 (Array.getElem?_toList.trans hr))

end Blueprint

/-! ### Proper parsers -/

/-- What is known of a parser that was built. -/
structure Parser.Proper {α : Type} (p : Parser α) : Prop where
  wellFormed : p.grammar.WellFormed
  tables : Tables.build p.grammar = .ok p.tables
  lexer : p.lexer.Realizes p.grammar.patterns p.grammar.eof
  patterns : ∀ q ∈ p.grammar.patterns, q.terminal ≠ p.grammar.eof ∧
    p.grammar.error ≠ some q.terminal
  values : ∀ prod t, .terminal t ∈ p.grammar.rhs prod → (p.values[t]?.bind id).isSome
  rules : p.rules.size = p.grammar.prods.size
  operands : ∀ prod r, p.rules[prod]? = some r → Blueprint.ruleFault p.grammar prod r.rule = none
  error_lt : ∀ e, p.grammar.error = some e → e < p.grammar.terminals.size

namespace Blueprint

variable {α : Type} {b : Blueprint α}

theorem build_eq_ok {p : Parser α} (h : b.build = .ok p) : ∃ start values,
    b.start? = some start ∧ b.draft.build start = .ok p.grammar ∧
    fillValues p.grammar b.literalValue (usedTerminals p.grammar) b.values = .ok values ∧
    Lexer.build p.grammar.patterns p.grammar.eof b.settings.runtime = .ok p.lexer ∧
    Tables.build p.grammar = .ok p.tables ∧ p.values = values ∧ p.rules = b.rules ∧
    firstRuleFault p.grammar b.rules = none := by
  rw [build, construct] at h
  split at h
  · exact absurd h (by simp)
  · exact absurd h (by simp)
  · next start _ hstart =>
    simp only at h
    split at h
    · exact absurd h (by simp)
    · next g hg =>
      simp only [complete] at h
      split at h
      · exact absurd h (by simp)
      · next hfault =>
        split at h
        · exact absurd h (by simp)
        · next values hvalues =>
          simp only [assemble] at h
          split at h
          · exact absurd h (by simp)
          · next lexer hlexer =>
            split at h
            · exact absurd h (by simp)
            · next t ht =>
              obtain rfl := Except.ok.inj h
              refine ⟨start, values, hstart, hg, hvalues, ?_, ht, rfl, rfl, hfault⟩
              rw [Lexer.build, hlexer]
              rfl

/-- A parser that is made of declarations is proper. -/
theorem Declared.proper (h : b.Declared) {p : Parser α} (hp : b.build = .ok p) : p.Proper := by
  have hb := h.consistent
  obtain ⟨start, values, -, hg, hvalues, hlexer, htables, rfl, hrules, hfault⟩ := build_eq_ok hp
  obtain ⟨d', hd', hfinish⟩ := Draft.exists_settles_of_build hg
  obtain ⟨-, -, hfilled⟩ := fillValues_spec hvalues
  have hwf := hb.draft.wellFormed hg
  refine
    { wellFormed := hwf, tables := htables, lexer := Lexer.realizes_of_build hlexer,
      patterns := fun q hq => hb.draft.not_mem_patterns hg hq, values := ?_, rules := ?_,
      operands := ?_, error_lt := fun e he => hb.draft.error_lt hg he }
  · intro prod t ht
    refine hfilled t (mem_usedTerminals ht) ?_
    -- a terminal of a production was declared, so it has its place
    have hlt := hwf.terminal_lt prod t ht
    have hne : t ≠ p.grammar.eof := by
      rintro rfl
      exact hwf.eof_not_mem prod ht
    have hsize : p.grammar.terminals.size = p.grammar.eof + 1 := by
      rw [hfinish]
      exact Array.size_push _
    have heof : p.grammar.eof = b.draft.terminals.size := by
      rw [hfinish]
      exact hd'.size
    rw [hb.values, ← heof]
    omega
  · rw [hrules, hb.rules, hfinish]
    exact hd'.size_prods.symm
  · intro prod r hr
    rw [hrules] at hr
    exact ruleFault_of_firstRuleFault hfault hr

end Blueprint

end ShiftReduce
