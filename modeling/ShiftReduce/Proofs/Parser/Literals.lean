import ShiftReduce.Proofs.Parser.Soundness
import ShiftReduce.Proofs.Regex.Escape

/-!
# Literals are recognised

A literal is declared where its text is first mentioned. If the texts are escaped at that point, every
literal of a parser is found in its own text, as one token (`Blueprint.literal_recognised`), whatever
other terminals have been declared: a pattern that matches the text as well has a lower rank, and no two
literals match the same text. `IsLiteralTable` is what the declarations keep for this.

`Declaration` names the declarations, so that a parser can be made of a list of them.
-/

namespace ShiftReduce

/-! ### Declarations -/

/-- One declaration for a parser. -/
inductive Declaration (α : Type) where
  | terminal (pattern : String) (value : String → α)
  | literal (text : String)
  | ignore (pattern : String)
  | errorToken
  | nonterminal (name : String)
  | production (nt : Nat) (parts : List Part)
  | setRule (prod : Nat) (rule : Rule α)
  | setOnError (prod : Nat) (handler : ParseError → List α → α)
  | setPrec (prod group : Nat)
  | precGroup (assoc : Assoc) (terminals : List TerminalUse)
  | setLiteralValue (value : String → α)
  | setRuntime (runtime : Runtime)
  | setEscapeLiterals (escape : Bool)
  | setStart (nt : Nat)

/-- The text of the literal that is meant, if it is one. -/
def TerminalUse.literals : TerminalUse → List String
  | .declared _ => []
  | .literal text => [text]

/-- The text of the literal that is meant, if it is one. -/
def Part.literals : Part → List String
  | .terminal t => t.literals
  | .nonterminal _ => []

/-- The texts of the literals that a declaration mentions. -/
def Declaration.literals {α : Type} : Declaration α → List String
  | .literal text => [text]
  | .production _ parts => parts.flatMap Part.literals
  | .precGroup _ terminals => terminals.flatMap TerminalUse.literals
  | _ => []

/-! ### Tables of literals -/

/-- The literals of the table are the literal terminals, each with the expression for its text, and no
text is in the table twice. -/
structure IsLiteralTable (terminals : Array Terminal) (table : List (String × Nat)) : Prop where
  declared : ∀ {text : String} {t : Nat}, (text, t) ∈ table → ∃ terminal,
    terminals[t]? = some terminal ∧ terminal.pattern = some (Regex.literal text) ∧
    terminal.skip = false ∧ terminal.literal = true
  listed : ∀ {t : Nat} {terminal : Terminal}, terminals[t]? = some terminal →
    terminal.literal = true → ∃ text, (text, t) ∈ table
  nodup : (table.map Prod.fst).Nodup

namespace IsLiteralTable

variable {terminals terminals' : Array Terminal} {table : List (String × Nat)}

theorem empty : IsLiteralTable #[] [] where
  declared h := absurd h List.not_mem_nil
  listed h := by simp at h
  nodup := List.nodup_nil

/-- One more terminal that is not a literal. -/
theorem push (h : IsLiteralTable terminals table) {terminal : Terminal}
    (hterminal : terminal.literal = false) : IsLiteralTable (terminals.push terminal) table := by
  refine { declared := ?_, listed := ?_, nodup := h.nodup }
  · intro text t ht
    obtain ⟨terminal', hget, hread⟩ := h.declared ht
    exact ⟨terminal', Draft.getElem?_push_of_some hget terminal, hread⟩
  · intro t terminal' hget hliteral
    rw [Array.getElem?_push] at hget
    split at hget
    · obtain rfl := Option.some.inj hget
      exact absurd (hterminal.symm.trans hliteral) (by simp)
    · exact h.listed hget hliteral

/-- One more literal, with the expression for its text. -/
theorem pushLiteral (h : IsLiteralTable terminals table) {text : String} (name : String)
    (hnew : table.lookup text = none) :
    IsLiteralTable (terminals.push ⟨name, some (Regex.literal text), false, true, none⟩)
      (table ++ [(text, terminals.size)]) := by
  refine { declared := ?_, listed := ?_, nodup := ?_ }
  · intro text' t ht
    rw [List.mem_append, List.mem_singleton] at ht
    rcases ht with ht | ht
    · obtain ⟨terminal, hget, hread⟩ := h.declared ht
      exact ⟨terminal, Draft.getElem?_push_of_some hget _, hread⟩
    · obtain ⟨rfl, rfl⟩ := Prod.mk.inj ht
      exact ⟨_, Array.getElem?_push_size, rfl, rfl, rfl⟩
  · intro t terminal hget hliteral
    rw [Array.getElem?_push] at hget
    split at hget
    · next heq =>
      rw [heq]
      exact ⟨text, List.mem_concat_self⟩
    · obtain ⟨text', htext'⟩ := h.listed hget hliteral
      exact ⟨text', List.mem_append_left _ htext'⟩
  · rw [List.map_append, List.map_singleton, List.nodup_append]
    refine ⟨h.nodup, List.nodup_singleton _, ?_⟩
    intro text' htext' text'' htext'' heq
    obtain ⟨entry, hentry, rfl⟩ := List.mem_map.1 htext'
    rw [List.mem_singleton.1 htext''] at heq
    exact absurd heq.symm (by simpa using List.lookup_eq_none_iff.1 hnew entry hentry)

/-- What else is known of the terminals does not matter. -/
theorem congr (h : IsLiteralTable terminals table)
    (hsame : ∀ i : Nat, terminals'[i]?.map (fun t => (t.pattern, t.skip, t.literal)) =
      terminals[i]?.map fun t => (t.pattern, t.skip, t.literal)) :
    IsLiteralTable terminals' table := by
  refine { declared := ?_, listed := ?_, nodup := h.nodup }
  · intro text t ht
    obtain ⟨terminal, hget, hpattern, hskip, hliteral⟩ := h.declared ht
    have hmap := hsame t
    rw [hget, Option.map_some] at hmap
    obtain ⟨terminal', hget', heq⟩ := Option.map_eq_some_iff.1 hmap
    simp only [Prod.mk.injEq] at heq
    obtain ⟨hpattern', hskip', hliteral'⟩ := heq
    exact ⟨terminal', hget', hpattern'.trans hpattern, hskip'.trans hskip,
      hliteral'.trans hliteral⟩
  · intro t terminal' hget' hliteral'
    have hmap := hsame t
    rw [hget', Option.map_some] at hmap
    obtain ⟨terminal, hget, heq⟩ := Option.map_eq_some_iff.1 hmap.symm
    simp only [Prod.mk.injEq] at heq
    exact h.listed hget (heq.2.2.trans hliteral')

theorem mem_of_lookup {text : String} {t : Nat} (hlookup : table.lookup text = some t) :
    (text, t) ∈ table := by
  obtain ⟨before, after, rfl, -⟩ := List.lookup_eq_some_iff.1 hlookup
  exact List.mem_append_right _ List.mem_cons_self

/-- A text has one terminal. -/
theorem eq_of_mem (h : IsLiteralTable terminals table) {text : String} {t t' : Nat}
    (ht : (text, t) ∈ table) (ht' : (text, t') ∈ table) : t = t' :=
  (Prod.mk.inj (List.inj_on_of_nodup_map h.nodup ht ht' rfl)).2

/-- A terminal has one text. -/
theorem text_eq_of_mem (h : IsLiteralTable terminals table) {text text' : String} {t : Nat}
    (ht : (text, t) ∈ table) (ht' : (text', t) ∈ table) : text = text' := by
  obtain ⟨terminal, hget, hpattern, -⟩ := h.declared ht
  obtain ⟨terminal', hget', hpattern', -⟩ := h.declared ht'
  obtain rfl := Option.some.inj (hget.symm.trans hget')
  have hlang : text.toList ∈ (Regex.literal text').lang := by
    rw [← Option.some.inj (hpattern.symm.trans hpattern'), Regex.mem_lang_literal]
  exact String.toList_inj.1 (Regex.mem_lang_literal.1 hlang)

end IsLiteralTable

namespace Blueprint

variable {α : Type} {b b' : Blueprint α}

/-- The blueprint after one more declaration. -/
def declare (b : Blueprint α) : Declaration α → Blueprint α
  | .terminal pattern value => (b.terminal pattern value).1
  | .literal text => (b.literal text).1
  | .ignore pattern => b.ignore pattern
  | .errorToken => b.errorToken.1
  | .nonterminal name => (b.nonterminal name).1
  | .production nt parts => (b.production nt parts).1
  | .setRule prod rule => b.setRule prod rule
  | .setOnError prod handler => b.setOnError prod handler
  | .setPrec prod group => b.setPrec prod group
  | .precGroup assoc terminals => (b.precGroup assoc terminals).1
  | .setLiteralValue value => b.setLiteralValue value
  | .setRuntime runtime => b.setRuntime runtime
  | .setEscapeLiterals escape => b.setEscapeLiterals escape
  | .setStart nt => b.setStart nt

/-- The blueprint after some declarations. -/
def declareAll (b : Blueprint α) (ds : List (Declaration α)) : Blueprint α := ds.foldl declare b

/-- A text that is mentioned now is taken as it is: it is escaped, unless it was declared before. -/
def Escapes (b : Blueprint α) (text : String) : Prop :=
  (b.literals.lookup text).isSome ∨ b.settings.escapeLiterals = true

/-- Every literal of the declarations is taken as it is where it is declared. -/
def EscapesAll : Blueprint α → List (Declaration α) → Prop
  | _, [] => True
  | b, d :: ds => (∀ text ∈ d.literals, b.Escapes text) ∧ EscapesAll (b.declare d) ds

instance (b : Blueprint α) (text : String) : Decidable (b.Escapes text) :=
  inferInstanceAs (Decidable (_ ∨ _))

instance decidableEscapesAll : (b : Blueprint α) → (ds : List (Declaration α)) →
    Decidable (b.EscapesAll ds)
  | _, [] => inferInstanceAs (Decidable True)
  | b, d :: ds =>
    have := decidableEscapesAll (b.declare d) ds
    inferInstanceAs (Decidable (_ ∧ _))

/-! ### What the declarations keep -/

/-- The blueprint `b'` is `b` with some texts declared: the literals that there are stay. -/
structure Declares (b b' : Blueprint α) (texts : List String) : Prop where
  literals : b.literals <+: b'.literals
  known : ∀ text ∈ texts, (b'.literals.lookup text).isSome
  table : IsLiteralTable b.draft.terminals b.literals → (∀ text ∈ texts, b.Escapes text) →
    IsLiteralTable b'.draft.terminals b'.literals

theorem declares_self (b : Blueprint α) : b.Declares b [] where
  literals := List.prefix_rfl
  known _ htext := absurd htext List.not_mem_nil
  table h _ := h

/-- Only the terminals and the literals matter. -/
theorem Declares.congr {b₀ : Blueprint α} {texts : List String} (h : b₀.Declares b texts)
    (hterminals : b'.draft.terminals = b.draft.terminals) (hliterals : b'.literals = b.literals) :
    b₀.Declares b' texts where
  literals := by
    rw [hliterals]
    exact h.literals
  known := by
    rw [hliterals]
    exact h.known
  table := by
    rw [hterminals, hliterals]
    exact h.table

theorem declares_push (terminal : Terminal) (hterminal : terminal.literal = false)
    (hterminals : b'.draft.terminals = b.draft.terminals.push terminal)
    (hliterals : b'.literals = b.literals) : b.Declares b' [] where
  literals := by rw [hliterals]
  known _ htext := absurd htext List.not_mem_nil
  table h _ := by
    rw [hterminals, hliterals]
    exact h.push hterminal

/-- Terminals are mentioned one after the other, while the settings stay as they are. -/
structure Mentions (b b' : Blueprint α) (texts : List String) : Prop
    extends b.Declares b' texts where
  settings : b'.settings = b.settings

theorem mentions_nil (b : Blueprint α) : b.Mentions b [] := ⟨b.declares_self, rfl⟩

theorem Mentions.trans {b'' : Blueprint α} {texts texts' : List String} (h : b.Mentions b' texts)
    (h' : b'.Mentions b'' texts') : b.Mentions b'' (texts ++ texts') where
  settings := h'.settings.trans h.settings
  literals := h.literals.trans h'.literals
  known text htext := by
    rcases List.mem_append.1 htext with htext | htext
    · exact h'.literals.sublist.lookup_isSome (h.known text htext)
    · exact h'.known text htext
  table htable hescapes := by
    refine h'.table (h.table htable fun text htext => hescapes text (List.mem_append_left _ htext)) ?_
    intro text htext
    refine (hescapes text (List.mem_append_right _ htext)).imp ?_ ?_
    · exact h.literals.sublist.lookup_isSome
    · rw [h.settings]
      exact id

theorem readPattern_literals (b : Blueprint α) (pattern : String) :
    (b.readPattern pattern).1.literals = b.literals ∧
      (b.readPattern pattern).1.settings = b.settings := by
  rw [Blueprint.readPattern]
  split
  · exact ⟨rfl, rfl⟩
  · exact ⟨rfl, rfl⟩

/-- A literal that is new gets the next number. -/
theorem literal_of_lookup_eq_none (b : Blueprint α) {text : String}
    (hnew : b.literals.lookup text = none) {b₀ : Blueprint α} {regex : Regex}
    (hread : b.readPattern (if b.settings.escapeLiterals then Regex.escape text else text) =
      (b₀, regex)) : (b.literal text).1 =
      { b₀ with
        draft := (b₀.draft.literal ("'" ++ text ++ "'") regex).1
        values := b₀.values.push none
        literals := b₀.literals ++ [(text, b₀.draft.terminals.size)] } := by
  rw [Blueprint.literal, hnew]
  simp only [hread]
  rfl

theorem mentions_literal (b : Blueprint α) (text : String) :
    b.Mentions (b.literal text).1 [text] := by
  cases hlookup : b.literals.lookup text with
  | some t =>
    have hsame : (b.literal text).1 = b := by rw [Blueprint.literal, hlookup]
    rw [hsame]
    refine { b.mentions_nil with known := ?_, table := fun h _ => h }
    intro text' htext'
    rw [List.mem_singleton.1 htext', hlookup]
    rfl
  | none =>
    obtain ⟨hliterals, hsettings⟩ := b.readPattern_literals
      (if b.settings.escapeLiterals then Regex.escape text else text)
    cases hread : b.readPattern (if b.settings.escapeLiterals then Regex.escape text else text) with
    | mk b₀ regex =>
      rw [hread] at hliterals hsettings
      rw [b.literal_of_lookup_eq_none hlookup hread]
      refine { literals := ?_, known := ?_, table := ?_, settings := hsettings }
      · rw [hliterals]
        exact List.prefix_append _ _
      · intro text' htext'
        rw [List.mem_singleton.1 htext', List.lookup_append, List.lookup_cons_self, hliterals, hlookup]
        rfl
      · intro htable hescapes
        -- a new literal is escaped, so that its pattern is read as its text
        have hescape : b.settings.escapeLiterals = true := by
          refine (hescapes text (List.mem_singleton_self text)).resolve_left ?_
          rw [hlookup]
          exact Bool.false_ne_true
        rw [if_pos hescape, Blueprint.readPattern, Regex.parse_escape] at hread
        obtain ⟨rfl, rfl⟩ := Prod.mk.inj hread
        exact htable.pushLiteral _ hlookup

theorem mentions_useTerminal (b : Blueprint α) (use : TerminalUse) :
    b.Mentions (b.useTerminal use).1 use.literals := by
  cases use with
  | declared t => exact b.mentions_nil
  | literal text => exact b.mentions_literal text

theorem mentions_useTerminals (b : Blueprint α) (uses : List TerminalUse) :
    b.Mentions (b.useTerminals uses).1 (uses.flatMap TerminalUse.literals) := by
  induction uses generalizing b with
  | nil => exact b.mentions_nil
  | cons use uses ih => exact (b.mentions_useTerminal use).trans (ih _)

theorem mentions_useParts (b : Blueprint α) (parts : List Part) :
    b.Mentions (b.useParts parts).1 (parts.flatMap Part.literals) := by
  induction parts generalizing b with
  | nil => exact b.mentions_nil
  | cons part parts ih =>
    cases part with
    | nonterminal n => exact ih b
    | terminal use => exact (b.mentions_useTerminal use).trans (ih _)

/-- A declaration declares the literals that it mentions. -/
theorem declares_declare (b : Blueprint α) (d : Declaration α) :
    b.Declares (b.declare d) d.literals := by
  cases d with
  | terminal pattern value =>
    refine declares_push ⟨pattern, some (b.readPattern pattern).2, false, false, none⟩ rfl ?_
      (b.readPattern_literals pattern).1
    rw [← b.readPattern_draft pattern]
    rfl
  | literal text => exact (b.mentions_literal text).toDeclares
  | ignore pattern =>
    refine declares_push ⟨pattern, some (b.readPattern pattern).2, true, false, none⟩ rfl ?_
      (b.readPattern_literals pattern).1
    rw [← b.readPattern_draft pattern]
    rfl
  | errorToken =>
    cases herror : b.draft.error with
    | some t =>
      refine b.declares_self.congr ?_ rfl
      change b.draft.errorTerminal.1.terminals = b.draft.terminals
      rw [Draft.errorTerminal, herror]
    | none =>
      refine declares_push ⟨"error", none, false, false, none⟩ rfl ?_ rfl
      change b.draft.errorTerminal.1.terminals = b.draft.terminals.push _
      rw [Draft.errorTerminal, herror]
      rfl
  | nonterminal name => exact b.declares_self.congr rfl rfl
  | production nt parts => exact (b.mentions_useParts parts).toDeclares.congr rfl rfl
  | setRule prod rule => exact b.declares_self.congr rfl rfl
  | setOnError prod handler => exact b.declares_self.congr rfl rfl
  | setPrec prod group => exact b.declares_self.congr rfl rfl
  | precGroup assoc terminals => exact (b.mentions_useTerminals terminals).toDeclares.congr rfl rfl
  | setLiteralValue value => exact b.declares_self.congr rfl rfl
  | setRuntime runtime => exact b.declares_self.congr rfl rfl
  | setEscapeLiterals escape => exact b.declares_self.congr rfl rfl
  | setStart nt => exact b.declares_self.congr rfl rfl

theorem prefix_declareAll (b : Blueprint α) (ds : List (Declaration α)) :
    b.literals <+: (b.declareAll ds).literals := by
  induction ds generalizing b with
  | nil => exact List.prefix_rfl
  | cons d ds ih => exact (b.declares_declare d).literals.trans (ih (b.declare d))

/-- Declarations that escape their literals declare them all, each with the expression for its text. -/
theorem isLiteralTable_declareAll {ds : List (Declaration α)}
    (h : IsLiteralTable b.draft.terminals b.literals) (hds : b.EscapesAll ds) :
    IsLiteralTable (b.declareAll ds).draft.terminals (b.declareAll ds).literals ∧
      ∀ d ∈ ds, ∀ text ∈ d.literals, ((b.declareAll ds).literals.lookup text).isSome := by
  induction ds generalizing b with
  | nil => exact ⟨h, fun d hd => absurd hd List.not_mem_nil⟩
  | cons d ds ih =>
    obtain ⟨hescapes, hds⟩ := hds
    have hd := b.declares_declare d
    obtain ⟨htable, hknown⟩ := ih (hd.table h hescapes) hds
    refine ⟨htable, List.forall_mem_cons.2 ⟨?_, hknown⟩⟩
    intro text htext
    exact ((b.declare d).prefix_declareAll ds).sublist.lookup_isSome (hd.known text htext)

end Blueprint

/-! ### Ranks of patterns -/

namespace Grammar

variable {g : Grammar}

theorem mem_patterns {q : Pattern} : q ∈ g.patterns ↔ ∃ terminal,
    g.terminals[q.terminal]? = some terminal ∧ terminal.pattern = some q.regex ∧
    q.priority = (if terminal.literal then q.terminal else g.terminals.size + q.terminal) ∧
    q.skip = terminal.skip := by
  rw [patterns, List.mem_filterMap]
  constructor
  · rintro ⟨⟨terminal, t⟩, hmem, hpattern⟩
    obtain ⟨regex, hregex, rfl⟩ := Option.map_eq_some_iff.1 hpattern
    rw [List.mem_zipIdx_iff_getElem?, Array.getElem?_toList] at hmem
    exact ⟨terminal, hmem, hregex, rfl, rfl⟩
  · rintro ⟨terminal, hget, hregex, hpriority, hskip⟩
    refine ⟨(terminal, q.terminal), ?_, ?_⟩
    · rw [List.mem_zipIdx_iff_getElem?, Array.getElem?_toList]
      exact hget
    · simp only [hregex, Option.map_some, ← hpriority, ← hskip]

/-- The patterns come in the order of their terminals. -/
theorem pairwise_patterns (g : Grammar) :
    g.patterns.Pairwise fun q q' => q.terminal < q'.terminal := by
  have hsorted : g.terminals.toList.zipIdx.Pairwise fun x y => x.2 < y.2 := by
    rw [← List.pairwise_map, List.zipIdx_map_snd]
    exact List.pairwise_lt_range'
  refine List.pairwise_filterMap.2 (hsorted.imp ?_)
  intro x y hlt q hq q' hq'
  obtain ⟨_, -, rfl⟩ := Option.map_eq_some_iff.1 hq
  obtain ⟨_, -, rfl⟩ := Option.map_eq_some_iff.1 hq'
  exact hlt

/-- A text is attributed to the literal terminal that matches it, if there is only one. -/
theorem attributed_of_literal {t : Nat} {terminal : Terminal} {regex : Regex} {w : List Char}
    (hget : g.terminals[t]? = some terminal) (hregex : terminal.pattern = some regex)
    (hliteral : terminal.literal = true) (hw : w ∈ regex.lang)
    (hunique : ∀ t' terminal' regex', g.terminals[t']? = some terminal' →
      terminal'.pattern = some regex' → terminal'.literal = true → w ∈ regex'.lang → t' = t) :
    Attributed g.patterns w t := by
  have hmem : ⟨t, regex, t, terminal.skip⟩ ∈ g.patterns :=
    mem_patterns.2 ⟨terminal, hget, hregex, by rw [if_pos hliteral], rfl⟩
  obtain ⟨i, hi⟩ := List.mem_iff_getElem?.1 hmem
  refine ⟨i, _, hi, rfl, hw, ?_⟩
  intro j q hj hq
  obtain ⟨terminal', hget', hregex', hpriority, -⟩ := mem_patterns.1 (List.mem_of_getElem? hj)
  have hlt : t < g.terminals.size := (Array.getElem?_eq_some_iff.1 hget).1
  by_cases hliteral' : terminal'.literal = true
  · -- the only literal that matches is the one itself
    have hsame : q.terminal = t := hunique _ _ _ hget' hregex' hliteral' hq
    rw [if_pos hliteral', hsame] at hpriority
    refine ⟨hpriority.ge, fun hji => ?_⟩
    obtain ⟨hj', hqj⟩ := List.getElem?_eq_some_iff.1 hj
    obtain ⟨hi', hqi⟩ := List.getElem?_eq_some_iff.1 hi
    have := List.pairwise_iff_getElem.1 g.pairwise_patterns j i hj' hi' hji
    rw [hqj, hqi, hsame] at this
    exact absurd this (Nat.lt_irrefl t)
  · rw [if_neg hliteral'] at hpriority
    simp only [hpriority]
    omega

end Grammar

/-! ### Literals of a parser -/

namespace IsLiteralTable

variable {g : Grammar} {table : List (String × Nat)} {text : String} {t : Nat}

/-- The text of a literal is attributed to its terminal. -/
theorem attributed (h : IsLiteralTable g.terminals table) (ht : (text, t) ∈ table) :
    Attributed g.patterns text.toList t := by
  obtain ⟨terminal, hget, hpattern, -, hliteral⟩ := h.declared ht
  refine Grammar.attributed_of_literal hget hpattern hliteral (Regex.mem_lang_literal.2 rfl) ?_
  intro t' terminal' regex' hget' hpattern' hliteral' hmem
  obtain ⟨text', ht'⟩ := h.listed hget' hliteral'
  obtain ⟨terminal'', hget'', hpattern'', -⟩ := h.declared ht'
  obtain rfl := Option.some.inj (hget'.symm.trans hget'')
  rw [Option.some.inj (hpattern'.symm.trans hpattern''), Regex.mem_lang_literal,
    String.toList_inj] at hmem
  rw [← hmem] at ht'
  exact h.eq_of_mem ht' ht

theorem not_skipped (h : IsLiteralTable g.terminals table) (ht : (text, t) ∈ table) :
    ¬ Skipped g.patterns t := by
  rintro ⟨q, hq, hskip, rfl⟩
  obtain ⟨terminal, hget, -, hskip', -⟩ := h.declared ht
  obtain ⟨terminal', hget', -, -, heq⟩ := Grammar.mem_patterns.1 hq
  obtain rfl := Option.some.inj (hget.symm.trans hget')
  exact absurd ((hskip.symm.trans heq).trans hskip') (by simp)

/-- A lexer finds a literal in its text. -/
theorem tokens_eq (h : IsLiteralTable g.terminals table) (ht : (text, t) ∈ table) {lx : Lexer}
    {eof : Nat} {runtime : Runtime} (hlexer : Lexer.build g.patterns eof runtime = .ok lx) :
    lx.tokens text = [.ok ⟨t, text, 0, text.utf8ByteSize⟩,
      .ok ⟨eof, "", text.utf8ByteSize, text.utf8ByteSize⟩] := by
  have hattributed := h.attributed ht
  have hne : text.toList ≠ [] := by
    intro hnil
    obtain ⟨q, hq, -, hmem⟩ := hattributed.exists_pattern
    rw [hnil] at hmem
    exact Lexer.not_nil_mem_of_build hlexer q hq hmem
  have hmunched : Munched g.patterns text.toList [] t := by
    refine ⟨hne, hattributed, fun u v huv hu => absurd ?_ hu⟩
    exact (List.append_eq_nil_iff.1 huv).1
  have hsize : Text.byteLength text.toList = text.utf8ByteSize := by
    rw [← utf8ByteSize_ofList, String.ofList_toList]
  have hcut : Decomposes g.patterns eof 0 (text.toList ++ [])
      (.ok ⟨t, String.ofList text.toList, 0, 0 + Text.byteLength text.toList⟩ :: _) :=
    .token hmunched (h.not_skipped ht) .ending
  rw [List.append_nil, Nat.zero_add, String.ofList_toList, hsize] at hcut
  exact (Lexer.realizes_of_build hlexer).tokensFrom_of_decomposes hcut

end IsLiteralTable

/-- Every literal of a parser whose texts were all escaped is found in its own text, as one token that is
followed by the end of the input, and different texts have different terminals. -/
theorem Blueprint.literal_recognised {α : Type} {ds : List (Declaration α)}
    (hds : (empty : Blueprint α).EscapesAll ds) {p : Parser α}
    (hp : ((empty : Blueprint α).declareAll ds).build = .ok p) :
    (∀ d ∈ ds, ∀ text ∈ d.literals, ∃ t,
      ((empty : Blueprint α).declareAll ds).literals.lookup text = some t ∧
      p.lexer.tokens text = [.ok ⟨t, text, 0, text.utf8ByteSize⟩,
        .ok ⟨p.grammar.eof, "", text.utf8ByteSize, text.utf8ByteSize⟩]) ∧
    ∀ text text' t, ((empty : Blueprint α).declareAll ds).literals.lookup text = some t →
      ((empty : Blueprint α).declareAll ds).literals.lookup text' = some t → text = text' := by
  obtain ⟨htable, hknown⟩ := isLiteralTable_declareAll (b := empty) .empty hds
  obtain ⟨start, -, -, hg, -, hlexer, -⟩ := build_eq_ok hp
  obtain ⟨d', hd', hfinish⟩ := Draft.exists_settles_of_build hg
  -- the terminals of the grammar are those declared, with their groups, and the end of the input
  have htable' : IsLiteralTable p.grammar.terminals (declareAll empty ds).literals := by
    rw [hfinish]
    exact (htable.congr (hd'.map_terminals fun _ _ => rfl)).push rfl
  constructor
  · intro d hd text htext
    obtain ⟨t, ht⟩ := Option.isSome_iff_exists.1 (hknown d hd text htext)
    exact ⟨t, ht, htable'.tokens_eq (IsLiteralTable.mem_of_lookup ht) hlexer⟩
  · intro text text' t ht ht'
    exact htable'.text_eq_of_mem (IsLiteralTable.mem_of_lookup ht) (IsLiteralTable.mem_of_lookup ht')

/-- Declarations of two literals, one of which begins with the other, among patterns that match them as
well. -/
def Declaration.signs : List (Declaration String) :=
  [.terminal "[+=]+" id, .setLiteralValue id, .nonterminal "S",
    .production 0 [.terminal (.literal "+="), .terminal (.declared 0)],
    .production 0 [.terminal (.literal "+")], .ignore "\\++"]

theorem Blueprint.literal_recognised_signs : ∃ p t,
    (Blueprint.empty.declareAll Declaration.signs).build = .ok p ∧
    p.lexer.tokens "+=" = [.ok ⟨t, "+=", 0, 2⟩, .ok ⟨p.grammar.eof, "", 2, 2⟩] := by
  obtain ⟨p, hp, -⟩ := Blueprint.exists_build (b := Blueprint.empty.declareAll Declaration.signs)
    (P := fun _ => True) (by decide +kernel)
  obtain ⟨t, -, htokens⟩ := (Blueprint.literal_recognised (by decide +kernel) hp).1
    (.production 0 [.terminal (.literal "+="), .terminal (.declared 0)]) (by simp [Declaration.signs])
    "+=" (by decide)
  exact ⟨p, t, hp, htokens⟩

end ShiftReduce
