import ShiftReduce.Diagnostic.Layout
import ShiftReduce.Proofs.Parser.Safety

/-!
# The place in a report

A report looks line and column up in the table of lines that its renderer has of the source, whereas an
error carries the location that was reached by walking over the characters. All that is asked of a renderer
is that it has a table of line starts and shows what the table gives (`Renderer.Tabular`). Then a report
against the parsed input names the location of the error, since a table gives one location only
(`Renderer.Tabular.names_report`). `Diagnostic.layout` is such a renderer (`Diagnostic.tabular_layout`).

The main statement is `locations_identify_offsets`.
-/

namespace ShiftReduce

open Text

/-! ### Renderers -/

/-- A report with the given headline whose second row names the location, after the name of the
source. -/
def Diagnostic.Names (report message name : String) (l : Location) : Prop :=
  ∃ (margin : Nat) (rest : String), report = "error: " ++ message ++ "\n" ++
    (String.ofList (List.replicate margin ' ') ++ "┌─ " ++
      (name ++ ":" ++ toString l.line ++ ":" ++ toString l.column) ++ "\n" ++ rest)

/-- The renderer looks places up in a table of line starts: zero and the byte after each line feed, in
ascending order. If the span of a diagnostic lies in the source, the diagnostic is shown, and it names the
location that the table gives to the first byte of the span. -/
structure Renderer.Tabular (r : Renderer) : Prop where
  mem_starts : ∀ source s, s ∈ r.starts source ↔
    s = 0 ∨ ∃ u v, source.toList = u ++ '\n' :: v ∧ s = byteLength u + 1
  sorted_starts : ∀ source, (r.starts source).Pairwise (· < ·)
  emit : ∀ (d : Diagnostic) name source, IsBoundary source d.span.start →
    IsBoundary source d.span.stop → d.span.start ≤ d.span.stop →
      ∃ text l, r.emit d name source = some text ∧
        l.InTable (r.starts source) source d.span.start ∧ Diagnostic.Names text d.message name l

/-- A diagnostic is shown with the location that is reached by walking to the first byte of its span. -/
theorem Renderer.Tabular.names {r : Renderer} (h : r.Tabular) {d : Diagnostic} {source : String}
    (hstart : IsBoundary source d.span.start) (hstop : IsBoundary source d.span.stop)
    (hle : d.span.start ≤ d.span.stop) (name : String) : ∃ text, r.emit d name source = some text ∧
      Diagnostic.Names text d.message name (Location.ofOffset source d.span.start) := by
  obtain ⟨text, l, htext, hl, hnames⟩ := h.emit d name source hstart hstop hle
  rw [eq_lineStarts (h.mem_starts source) (h.sorted_starts source)] at hl
  rw [← hl.unique (Location.inTable_ofOffset hstart)]
  exact ⟨text, htext, hnames⟩

namespace Diagnostic

/-! ### Lines -/

theorem map_start_linesFrom (start : Nat) (line cs : List Char) :
    (linesFrom start line cs).map SourceLine.start =
      start :: lineStartsFrom (start + byteLength line) cs := by
  induction cs generalizing start line with
  | nil => rfl
  | cons c cs ih =>
    rw [linesFrom, lineStartsFrom]
    split
    · next hc =>
      rw [List.map_cons, ih, byteLength_cons, byteLength_nil, hc, utf8Size_newline, Nat.add_zero,
        Nat.add_comm 1, Nat.add_assoc]
    · rw [ih, byteLength_cons, Nat.add_comm c.utf8Size, Nat.add_assoc]

/-- The lines of a source start where its table of line starts says. -/
theorem map_start_linesOf (source : String) :
    (linesOf source).map SourceLine.start = lineStarts source :=
  map_start_linesFrom 0 [] source.toList

/-- The line in hand is the first one, and goes on with characters that are left. -/
theorem linesFrom_eq_cons (start : Nat) (line cs : List Char) : ∃ more rest, more <+: cs ∧
    linesFrom start line cs = ⟨start, line.reverse ++ more⟩ :: rest := by
  induction cs generalizing line with
  | nil => exact ⟨[], [], List.nil_prefix, by rw [linesFrom, List.append_nil]⟩
  | cons c cs ih =>
    rw [linesFrom]
    split
    · exact ⟨[c], _, List.prefix_append [c] cs, by rw [List.reverse_cons]⟩
    · obtain ⟨more, rest, hmore, heq⟩ := ih (c :: line)
      refine ⟨c :: more, rest, List.prefix_cons_inj c |>.2 hmore, ?_⟩
      rw [heq, List.reverse_cons, List.append_assoc, List.singleton_append]

theorem lineIndex_eq_zero {first : SourceLine} {rest : List SourceLine} {offset : Nat}
    (h : ∀ line ∈ rest, offset < line.start) : lineIndex (first :: rest) offset = 0 := by
  have hrest : (rest.takeWhile fun line => line.start ≤ offset) = [] := by
    cases rest with
    | nil => rfl
    | cons line rest =>
      have := h line List.mem_cons_self
      exact List.takeWhile_cons_of_neg (by simpa using this)
  rw [lineIndex, List.takeWhile_cons, hrest]
  split
  · rfl
  · rfl

theorem lineIndex_cons {first second : SourceLine} {rest : List SourceLine} {offset : Nat}
    (hfirst : first.start ≤ offset) (hsecond : second.start ≤ offset) :
    lineIndex (first :: second :: rest) offset = lineIndex (second :: rest) offset + 1 := by
  have h : ∀ {line : SourceLine} {lines : List SourceLine}, line.start ≤ offset →
      ((line :: lines).takeWhile fun line => line.start ≤ offset) =
        line :: lines.takeWhile fun line => line.start ≤ offset := fun hle =>
    List.takeWhile_cons_of_pos (decide_eq_true hle)
  rw [lineIndex, lineIndex, h hfirst, h hsecond]
  rfl

/-- A line in front of others that begin at or before the offset. -/
theorem lineIndex_cons_linesFrom {first : SourceLine} {start offset : Nat} (cs : List Char)
    (hfirst : first.start ≤ offset) (hstart : start ≤ offset) :
    lineIndex (first :: linesFrom start [] cs) offset =
      lineIndex (linesFrom start [] cs) offset + 1 := by
  obtain ⟨more, rest, -, heq⟩ := linesFrom_eq_cons start [] cs
  rw [heq]
  exact lineIndex_cons hfirst hstart

/-- An offset that does not go past the next character lies in the line in hand, behind what this
has so far. -/
theorem foundLine_of_lt (start : Nat) (line cs : List Char) {offset : Nat}
    (hle : start + byteLength line ≤ offset)
    (hlt : ∀ c ∈ cs.head?, offset < start + byteLength line + c.utf8Size) :
    lineIndex (linesFrom start line cs) offset = 0 ∧
    ∃ found, (linesFrom start line cs)[0]? = some found ∧ found.columnOf offset = line.length := by
  obtain ⟨more, rest, hmore, heq⟩ := linesFrom_eq_cons start line cs
  have hstarts := map_start_linesFrom start line cs
  rw [heq, List.map_cons, List.cons.injEq] at hstarts
  have hsub : offset - start - byteLength line = offset - (start + byteLength line) := Nat.sub_sub ..
  rw [heq]
  refine ⟨lineIndex_eq_zero fun other hother => ?_, _, rfl, ?_⟩
  · have hmem := hstarts.2 ▸ List.mem_map_of_mem (f := SourceLine.start) hother
    cases cs with
    | nil => exact absurd hmem List.not_mem_nil
    | cons c cs => exact Nat.lt_of_lt_of_le (hlt c rfl) (le_of_mem_lineStartsFrom_cons hmem)
  · have hbefore : before (offset - start - byteLength line) more = [] := by
      cases more with
      | nil => rfl
      | cons c more =>
        obtain ⟨cs, rfl⟩ := hmore
        have := hlt c rfl
        exact if_neg (by omega)
    rw [SourceLine.columnOf, before_append (by rw [byteLength_reverse]; omega), byteLength_reverse,
      hbefore, List.append_nil, List.length_reverse]

/-- Line and column found among the lines are those reached by walking over the characters. -/
theorem exists_foundLine (start : Nat) (line cs : List Char) {offset : Nat}
    (hle : start + byteLength line ≤ offset) (n : Nat) : ∃ found,
    (linesFrom start line cs)[lineIndex (linesFrom start line cs) offset]? = some found ∧
    (before (offset - (start + byteLength line)) cs).foldl Location.advance ⟨n, line.length + 1⟩ =
      ⟨n + lineIndex (linesFrom start line cs) offset, found.columnOf offset + 1⟩ := by
  induction cs generalizing start line n with
  | nil =>
    obtain ⟨hindex, found, hfound, hcolumn⟩ := foundLine_of_lt start line [] hle (by simp)
    rw [hindex]
    exact ⟨found, hfound, by rw [hcolumn]; rfl⟩
  | cons c cs ih =>
    by_cases hc : start + byteLength line + c.utf8Size ≤ offset
    · have hle' : start + byteLength (c :: line) ≤ offset := by
        rw [byteLength_cons]
        omega
      have hbefore : before (offset - (start + byteLength line)) (c :: cs) =
          c :: before (offset - (start + byteLength (c :: line))) cs := by
        rw [before, if_pos (by omega), byteLength_cons, Nat.add_comm c.utf8Size, ← Nat.add_assoc,
          Nat.sub_sub _ _ c.utf8Size]
      rw [hbefore, List.foldl_cons, Location.advance, linesFrom]
      split
      · -- the line in hand is finished, and the offset lies in one of the lines behind it
        obtain ⟨found, hfound, hwalk⟩ := ih (start + byteLength (c :: line)) [] hle' (n + 1)
        have hstart : start ≤ offset := Nat.le_of_add_right_le hle
        rw [lineIndex_cons_linesFrom cs hstart hle']
        refine ⟨found, hfound, hwalk.trans ?_⟩
        rw [Nat.add_right_comm, Nat.add_assoc n]
      · exact ih start (c :: line) hle' n
    · have hlt := Nat.lt_of_not_le hc
      obtain ⟨hindex, found, hfound, hcolumn⟩ :=
        foundLine_of_lt start line (c :: cs) hle (by simpa using hlt)
      rw [hindex, before, if_neg (by omega)]
      exact ⟨found, hfound, by rw [hcolumn]; rfl⟩

/-- A rendered diagnostic names the location of the first byte of its span. -/
theorem names_render (d : Diagnostic) (name source : String) :
    Names (d.render name source) d.message name (Location.ofOffset source d.span.start) := by
  have hzero : 0 + byteLength [] ≤ d.span.start := Nat.zero_le _
  obtain ⟨found, hfound, hwalk⟩ := exists_foundLine 0 [] source.toList hzero 1
  have hlocation : Location.ofOffset source d.span.start =
      ⟨lineIndex (linesOf source) d.span.start + 1, found.columnOf d.span.start + 1⟩ :=
    hwalk.trans (by rw [Nat.add_comm 1]; rfl)
  have hfirst : (linesOf source)[lineIndex (linesOf source) d.span.start]?.getD ⟨0, []⟩ = found := by
    rw [linesOf, hfound, Option.getD_some]
  rw [hlocation, Names, render, hfirst]
  simp only [List.cons_append, List.nil_append, List.map_cons, String.join_cons]
  exact ⟨_, _, rfl⟩

theorem starts_layout (source : String) : layout.starts source = lineStarts source :=
  map_start_linesOf source

/-- The lines of a source are a table of line starts, and what is rendered names what it gives. -/
theorem tabular_layout : layout.Tabular where
  mem_starts source s := by
    rw [starts_layout, mem_lineStarts_iff]
  sorted_starts source := by
    rw [starts_layout]
    exact pairwise_lineStarts source
  emit d name source hstart _ _ := by
    refine ⟨_, _, rfl, ?_, names_render d name source⟩
    rw [starts_layout]
    exact Location.inTable_ofOffset hstart

end Diagnostic

/-! ### Errors of a parse -/

/-- The location of the error is that of the first byte of its span, and the span lies in the input: it
begins and ends where characters do, and does not end before it begins. -/
structure ParseError.Located (input : String) (e : ParseError) : Prop where
  location : e.location = Location.ofOffset input e.span.start
  start : IsBoundary input e.span.start
  stop : IsBoundary input e.span.stop
  le : e.span.start ≤ e.span.stop

/-- A report against the input names the location of the error. -/
theorem Renderer.Tabular.names_report {r : Renderer} (h : r.Tabular) {input : String} {e : ParseError}
    (he : e.Located input) (name : String) :
    Diagnostic.Names (r.report e name input) (Diagnostic.ofError e).message name e.location := by
  obtain ⟨text, htext, hnames⟩ := h.names (d := .ofError e) he.start he.stop he.le name
  rw [Renderer.report, htext, he.location]
  exact hnames

/-- No token and no stray character ends before it begins. -/
theorem Decomposes.pairwise_placesOf {ps : List Pattern} {eof pos : Nat} {cs : List Char}
    {toks : List (Except LexError Token)} (h : Decomposes ps eof pos cs toks) :
    ∀ tok ∈ toks, (placesOf tok).Pairwise (· ≤ ·) := by
  induction h with
  | ending => exact List.forall_mem_singleton.2 (List.pairwise_pair.2 (Nat.le_refl _))
  | token _ _ _ ih =>
    exact List.forall_mem_cons.2 ⟨List.pairwise_pair.2 (Nat.le_add_right _ _), ih⟩
  | skipped _ _ _ ih => exact ih
  | stray _ _ ih => exact List.forall_mem_cons.2 ⟨List.pairwise_pair.2 (Nat.le_add_right _ _), ih⟩

namespace Parser

variable {α : Type} {p : Parser α} {input : String} {c : Config α} {e : ParseError}

/-- What has not been read yet is part of the input. -/
theorem Reached.mem_tokens (hp : p.Proper) (h : p.Reached input c) {tok : Except LexError Token}
    (htok : tok ∈ p.unread c.token c.ahead) : tok ∈ p.lexer.tokens input := by
  obtain ⟨tokens, forest, hsound⟩ := h.exists_sound hp
  rw [hsound.split]
  exact List.mem_append_right _ htok

/-- An error about a token or a stray character of the input is located. -/
theorem Proper.located (hp : p.Proper) {tok : Except LexError Token} (htok : tok ∈ p.lexer.tokens input)
    (hplaces : placesOf tok = [e.span.start, e.span.stop])
    (hlocation : e.location = Location.ofOffset input e.span.start) : e.Located input := by
  have hboundaries := hp.boundaries input tok htok
  have hle := (hp.lexer.decomposes_tokensFrom 0 input.toList).pairwise_placesOf tok htok
  rw [hplaces] at hboundaries hle
  exact
    { location := hlocation
      start := hboundaries _ List.mem_cons_self
      stop := hboundaries _ (List.mem_cons_of_mem _ List.mem_cons_self)
      le := List.pairwise_pair.1 hle }

theorem Proper.located_syntaxError (hp : p.Proper) (state : Nat) {token : Token}
    (htoken : .ok token ∈ p.lexer.tokens input) : (p.syntaxError input state token).Located input := by
  refine hp.located htoken ?_ ?_
  all_goals
    rw [syntaxError]
    split
    · rfl
    · rfl

theorem Fails.located (h : p.Fails input c e) (hp : p.Proper) (hreached : p.Reached input c) :
    e.Located input := by
  have htoken := hreached.mem_tokens hp List.mem_cons_self
  cases h with
  | stray hmem => exact hp.located (hreached.mem_tokens hp hmem) rfl rfl
  | unexpected _ => exact hp.located_syntaxError _ htoken
  | refused _ _ _ _ => exact hp.located htoken rfl rfl

/-- An error with which a parse ends is located. -/
theorem Proper.located_of_parse (hp : p.Proper) {fuel : Nat} {o : Outcome α}
    (hparse : p.parseWithin fuel input = some o) (he : o.result = .error e) : e.Located input := by
  rw [parseWithin] at hparse
  split at hparse
  · next e' hnext =>
    obtain rfl := Option.some.inj hparse
    obtain rfl : e' = e := Except.error.inj he
    rw [nextToken] at hnext
    split at hnext
    · exact absurd hnext (by simp)
    · next le after hscan =>
      obtain rfl := Except.error.inj hnext
      have hle : .error le ∈ p.lexer.tokens input := by
        rw [Lexer.tokens, Lexer.tokensFrom_of_scan, hscan]
        exact List.mem_cons_self
      exact hp.located hle rfl rfl
    · exact absurd hnext (by simp)
  · next token ahead hnext =>
    obtain ⟨c, hreached, hfails⟩ := (Reached.start hnext).fails_of_run hp hparse he
    exact hfails.located hp hreached

/-- An error that is recovered from, and may be handed to a handler, is located. -/
theorem Reached.located_recovered (hp : p.Proper) (h : p.Reached input c) :
    ∀ e, c.recovered = some e → e.Located input := by
  induction h with
  | start _ => exact fun e he => absurd he (by simp)
  | @step c c' moves h hstep ih =>
    intro e he
    rcases step_cases hstep with ⟨next, -, -, hshift⟩ | ⟨prod, -, -, hreduce⟩ | ⟨-, hstumble⟩
    · obtain ⟨value, token, ahead, -, -, rfl⟩ := shift_eq_next hshift
      exact ih e he
    · obtain ⟨value, next, -, -, rfl⟩ := reduce_eq_next hreduce
      simp only at he
      split at he
      · exact absurd he (by simp)
      · exact ih e he
    · rcases stumble_eq_next hstumble with ⟨-, hrecover⟩ | ⟨token, ahead, -, -, -, -, rfl⟩
      · obtain ⟨terminal, stack, state, next, value, moves', token, ahead, -, -, -, -, -, rfl⟩ :=
          recover_eq_next hrecover
        obtain rfl := Option.some.inj he
        exact hp.located_syntaxError _ (h.mem_tokens hp List.mem_cons_self)
      · exact ih e he

end Parser

/-- Locations identify offsets. Of two offsets between characters the smaller one has the smaller
location, so that an offset can be recovered from its location; past the end there is only the
location of the end. The line counts the line feeds before the offset and the column the characters
behind the last of them, and this is what the table of line starts gives. If a renderer has such a table, a
report against the parsed input names the location of the error, be it one that the parse ends with or one
that it recovers from. -/
theorem locations_identify_offsets :
    (∀ text : String,
      StrictMonoOn (fun offset => (Location.ofOffset text offset).key)
        {offset | IsBoundary text offset} ∧
      Set.InjOn (Location.ofOffset text) {offset | IsBoundary text offset} ∧
      (∀ offset, text.utf8ByteSize ≤ offset →
        Location.ofOffset text offset = Location.ofOffset text text.utf8ByteSize) ∧
      (∀ offset, Location.ofOffset text offset =
        ⟨(before offset text.toList).count '\n' + 1,
          ((before offset text.toList).reverse.takeWhile (· ≠ '\n')).length + 1⟩) ∧
      (∀ s, s ∈ lineStarts text ↔
        s = 0 ∨ ∃ u v, text.toList = u ++ '\n' :: v ∧ s = byteLength u + 1) ∧
      (∀ offset, IsBoundary text offset →
        (Location.ofOffset text offset).InTable (lineStarts text) text offset)) ∧
    ∀ r : Renderer, r.Tabular → ∀ {α : Type} {b : Blueprint α} {p : Parser α}, b.Declared →
      b.build = .ok p → ∀ (input : String) (e : ParseError),
        ((∃ fuel o, p.parseWithin fuel input = some o ∧ o.result = .error e) ∨
          ∃ c, p.Reached input c ∧ c.recovered = some e) →
        e.Located input ∧ ∀ name, Diagnostic.Names (r.report e name input)
          (Diagnostic.ofError e).message name e.location := by
  refine ⟨fun text => ⟨Location.strictMonoOn_ofOffset text, Location.injOn_ofOffset text,
    fun _ => Location.ofOffset_of_le, fun _ => Location.after_eq_scans _,
    fun _ => mem_lineStarts_iff, fun _ => Location.inTable_ofOffset⟩, ?_⟩
  intro r hr α b p hb hp input e he
  have hlocated : e.Located input := by
    rcases he with ⟨fuel, o, hparse, hresult⟩ | ⟨c, hreached, hrecovered⟩
    · exact (hb.proper hp).located_of_parse hparse hresult
    · exact hreached.located_recovered (hb.proper hp) e hrecovered
  exact ⟨hlocated, hr.names_report hlocated⟩

/-- Declarations for a parser of two letters. -/
def Blueprint.twoLetters : Blueprint String :=
  let b : Blueprint String := .empty
  let b := (b.terminal "é" id).1
  let b := (b.ignore " ").ignore "\n"
  let b := (b.nonterminal "S").1
  (b.production 0 [.terminal (.declared 0), .terminal (.declared 0)]).1

theorem Blueprint.declared_twoLetters : Blueprint.twoLetters.Declared :=
  .production (.nonterminal (.ignore (.ignore (.terminal .empty _ _) _) _) _) _ _

/-- The third letter is one too many. It begins with byte 6, the third character of the second line, and
this is what the report names. -/
theorem locations_identify_offsets_lines : ∃ (p : Parser String) (e : ParseError),
    Diagnostic.layout.Tabular ∧ Blueprint.twoLetters.build = .ok p ∧ e.span = ⟨6, 8⟩ ∧
    e.Located "é\né é" ∧
    Diagnostic.Names (e.report "lines" "é\né é") "unexpected é `é`" "lines" ⟨2, 3⟩ := by
  obtain ⟨p, hp, hparse⟩ := Blueprint.exists_build (b := Blueprint.twoLetters)
    (P := fun p => (p.parseWithin 5 "é\né é").bind Outcome.error? =
      some (.unexpectedToken "é" "é" ⟨6, 8⟩ ⟨2, 3⟩ 3 ["$end"])) (by decide +kernel)
  obtain ⟨o, ho, he⟩ := Option.bind_eq_some_iff.1 hparse
  have hresult := Outcome.error?_eq_some_iff.1 he
  obtain ⟨hlocated, hnames⟩ := locations_identify_offsets.2 Diagnostic.layout Diagnostic.tabular_layout
    Blueprint.declared_twoLetters hp "é\né é" _ (Or.inl ⟨5, o, ho, hresult⟩)
  exact ⟨p, _, Diagnostic.tabular_layout, hp, rfl, hlocated, hnames "lines"⟩

end ShiftReduce
