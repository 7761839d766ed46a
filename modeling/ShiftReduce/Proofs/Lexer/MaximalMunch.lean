import ShiftReduce.Lexer.Token
import ShiftReduce.Proofs.Automaton.Displaced
import ShiftReduce.Proofs.Lexer.Patterns
import ShiftReduce.Proofs.Text.Location

/-!
# Maximal munch

`Decomposes` says how a text is to be cut, in terms of the patterns alone: at each place the longest
non-empty beginning that some pattern matches is taken, and attributed to one of the patterns that
match it. `build_tokens_iff` says that a lexer does this, whichever way its automaton is run.
-/

namespace ShiftReduce

open Text

/-- One of the patterns matches the text. -/
def MatchesSome (ps : List Pattern) (w : List Char) : Prop := ∃ p ∈ ps, w ∈ p.regex.lang

/-- Some pattern with the terminal `t` is skipped. -/
def Skipped (ps : List Pattern) (t : Nat) : Prop := ∃ p ∈ ps, p.skip = true ∧ p.terminal = t

/-- The text `w` is the longest non-empty beginning of `w ++ rest` that some pattern matches, and it
is attributed to the terminal `t`. -/
structure Munched (ps : List Pattern) (w rest : List Char) (t : Nat) : Prop where
  ne_nil : w ≠ []
  attributed : Attributed ps w t
  longest : ∀ u v, u ++ v = rest → u ≠ [] → ¬ MatchesSome ps (w ++ u)

/-- The greedy decomposition of the text that is left at byte `pos`. -/
inductive Decomposes (ps : List Pattern) (eof : Nat) :
    Nat → List Char → List (Except LexError Token) → Prop
  /-- At the end there is one token with an empty text. -/
  | ending {pos : Nat} : Decomposes ps eof pos [] [.ok ⟨eof, "", pos, pos⟩]
  | token {pos : Nat} {w rest : List Char} {t : Nat} {toks : List (Except LexError Token)}
    (hmunched : Munched ps w rest t) (hskip : ¬ Skipped ps t)
    (hrest : Decomposes ps eof (pos + byteLength w) rest toks) :
    Decomposes ps eof pos (w ++ rest)
      (.ok ⟨t, String.ofList w, pos, pos + byteLength w⟩ :: toks)
  | skipped {pos : Nat} {w rest : List Char} {t : Nat} {toks : List (Except LexError Token)}
    (hmunched : Munched ps w rest t) (hskip : Skipped ps t)
    (hrest : Decomposes ps eof (pos + byteLength w) rest toks) :
    Decomposes ps eof pos (w ++ rest) toks
  /-- No pattern matches a beginning, and one character is left out. -/
  | stray {pos : Nat} {c : Char} {rest : List Char} {toks : List (Except LexError Token)}
    (hnone : ∀ u v, u ++ v = c :: rest → u ≠ [] → ¬ MatchesSome ps u)
    (hrest : Decomposes ps eof (pos + c.utf8Size) rest toks) :
    Decomposes ps eof pos (c :: rest) (.error ⟨c, pos, pos + c.utf8Size⟩ :: toks)

/-- A token that marks the end comes last, and it stands where the text ends. -/
theorem Decomposes.exists_ending {ps : List Pattern} {eof pos : Nat} {cs : List Char}
    {toks : List (Except LexError Token)} (h : Decomposes ps eof pos cs toks) :
    ∃ front, toks = front ++ [.ok ⟨eof, "", pos + byteLength cs, pos + byteLength cs⟩] := by
  induction h with
  | ending => exact ⟨[], rfl⟩
  | token hmunched hskip hrest ih =>
    obtain ⟨front, rfl⟩ := ih
    rw [byteLength_append, ← Nat.add_assoc]
    exact ⟨_ :: front, rfl⟩
  | skipped hmunched hskip hrest ih =>
    obtain ⟨front, rfl⟩ := ih
    rw [byteLength_append, ← Nat.add_assoc]
    exact ⟨front, rfl⟩
  | stray hnone hrest ih =>
    obtain ⟨front, rfl⟩ := ih
    rw [byteLength_cons, ← Nat.add_assoc]
    exact ⟨_ :: front, rfl⟩

namespace Lexer

variable {lx : Lexer} {ps : List Pattern} {eof : Nat} {runtime : Runtime}

theorem mem_skipped {t : Nat} : t ∈ skipped ps ↔ Skipped ps t := by
  simp only [skipped, List.mem_map, List.mem_filter, Skipped, and_assoc]

/-- What the automaton of a lexer accepts after a text is what the patterns say. -/
structure Realizes (lx : Lexer) (ps : List Pattern) (eof : Nat) : Prop where
  skip : lx.skip = skipped ps
  eof : lx.eof = eof
  longest_eq_some_iff : ∀ {cs found}, lx.longest cs = some found ↔
    found.lexeme ++ found.rest = cs ∧ Munched ps found.lexeme found.rest found.terminal
  longest_eq_none_iff : ∀ {cs}, lx.longest cs = none ↔
    ∀ u v, u ++ v = cs → u ≠ [] → ¬ MatchesSome ps u

/-- What the automaton of the patterns accepts after a text. -/
def terminalOf (ps : List Pattern) (w : List Char) : Option Nat :=
  (combine (alphabetOf ps) ps).recognizer.acceptsAfter (alphabetOf ps).letter
    (combine (alphabetOf ps) ps).startSet w

theorem terminalOf_eq_bestAccept (ps : List Pattern) (w : List Char) :
    terminalOf ps w = ((combine (alphabetOf ps) ps).bestAccept
      ((combine (alphabetOf ps) ps).setAfter (w.map (alphabetOf ps).letter))).map
        Accept.terminal :=
  Nfa.acceptsAfter_recognizer (combined_combine ps).bounded _ _ w

theorem terminalOf_eq_none_iff {w : List Char} : terminalOf ps w = none ↔ ¬ MatchesSome ps w := by
  have h := combined_combine ps
  rw [terminalOf_eq_bestAccept, Option.map_eq_none_iff]
  constructor
  · rintro hnone ⟨p, hp, hw⟩
    exact h.not_mem_lang hnone p hp hw
  · intro hnone
    refine Option.eq_none_iff_forall_ne_some.2 fun b hb => ?_
    obtain ⟨p, hp, -, hw⟩ := (h.attributed hb).exists_pattern
    exact hnone ⟨p, hp, hw⟩

theorem terminalOf_eq_some_iff {w : List Char} {t : Nat} :
    terminalOf ps w = some t ↔ Attributed ps w t := by
  have hsound : ∀ {t}, terminalOf ps w = some t → Attributed ps w t := by
    intro t ht
    rw [terminalOf_eq_bestAccept] at ht
    obtain ⟨b, hb, rfl⟩ := Option.map_eq_some_iff.1 ht
    exact (combined_combine ps).attributed hb
  refine ⟨hsound, ?_⟩
  intro h
  cases ht : terminalOf ps w with
  | none =>
    obtain ⟨p, hp, -, hw⟩ := h.exists_pattern
    exact absurd ⟨p, hp, hw⟩ (terminalOf_eq_none_iff.1 ht)
  | some t' => rw [h.eq (hsound ht)]

theorem isLongest_terminalOf_iff {cs : List Char} {found : Match} :
    found.IsLongest (terminalOf ps) cs ↔
      found.lexeme ++ found.rest = cs ∧ Munched ps found.lexeme found.rest found.terminal := by
  constructor
  · intro h
    refine ⟨h.append, h.ne_nil, terminalOf_eq_some_iff.1 h.terminal, ?_⟩
    intro u v huv hu
    exact terminalOf_eq_none_iff.1 (h.longest u v huv hu)
  · rintro ⟨happend, h⟩
    refine ⟨happend, h.ne_nil, terminalOf_eq_some_iff.2 h.attributed, ?_⟩
    intro u v huv hu
    exact terminalOf_eq_none_iff.2 (h.longest u v huv hu)

/-- A lexer whose automaton accepts what that of the patterns accepts. -/
theorem realizes_of_munch {σ : Type} {m : Recognizer σ} {s : σ} {letter : Char → Nat}
    (hskip : lx.skip = skipped ps) (heof : lx.eof = eof)
    (hlongest : ∀ cs, lx.longest cs = m.munch letter s cs)
    (haccepts : m.acceptsAfter letter s = terminalOf ps) : lx.Realizes ps eof where
  skip := hskip
  eof := heof
  longest_eq_some_iff {cs found} := by
    rw [hlongest, Recognizer.munch_eq_some_iff, haccepts, isLongest_terminalOf_iff]
  longest_eq_none_iff {cs} := by
    rw [hlongest, Recognizer.munch_eq_none_iff, haccepts]
    simp only [terminalOf_eq_none_iff]

theorem refusal_eq_none_iff :
    refusal ps = none ↔ ps ≠ [] ∧ ∀ p ∈ ps, [] ∉ p.regex.lang := by
  simp only [← Regex.acceptsEmpty_iff, Bool.not_eq_true]
  rw [refusal]
  split
  · next hnil => simp [List.isEmpty_iff.1 hnil]
  · next hne =>
    rw [Option.map_eq_none_iff, List.find?_eq_none]
    simp only [Bool.not_eq_true]
    refine (and_iff_right ?_).symm
    rintro rfl
    exact hne rfl

/-- A lexer is built unless there is a reason not to, and it does what its patterns say. -/
theorem exists_build (hps : refusal ps = none) (eof : Nat) (runtime : Runtime) :
    ∃ lx, build ps eof runtime = .ok lx ∧ lx.Realizes ps eof := by
  cases runtime with
  | nfa =>
    refine ⟨⟨.nfa (combine (alphabetOf ps) ps), alphabetOf ps, skipped ps, eof⟩, ?_, ?_⟩
    · rw [build, construct, hps]
      rfl
    · exact realizes_of_munch rfl rfl (fun _ => rfl) rfl
  | tabular =>
    refine ⟨⟨.tabular (Displaced.ofDfa (Dfa.ofNfa (combine (alphabetOf ps) ps)) (alphabetOf ps).size),
      alphabetOf ps, skipped ps, eof⟩, ?_, ?_⟩
    · rw [build, construct, hps]
      rfl
    · refine realizes_of_munch rfl rfl (fun _ => rfl) ?_
      have h := combined_combine ps
      exact funext (Displaced.acceptsAfter_ofDfa h.bounded h.pos _)

/-- Nothing but a refusal keeps a lexer from being built. -/
theorem build_eq_error_iff {e : LexerError} :
    build ps eof runtime = .error e ↔ refusal ps = some e := by
  cases hps : refusal ps with
  | some e' =>
    have herror : build ps eof runtime = .error e' := by
      rw [build, construct, hps]
      rfl
    rw [herror, Except.error.injEq, Option.some.injEq]
  | none =>
    obtain ⟨lx, hlx, -⟩ := exists_build hps eof runtime
    simp [hlx]

theorem refusal_of_build (h : build ps eof runtime = .ok lx) : refusal ps = none := by
  cases hps : refusal ps with
  | none => rfl
  | some e =>
    rw [build_eq_error_iff.2 hps] at h
    exact absurd h (by simp)

/-- There is no lexer for a pattern that matches the empty text. -/
theorem not_nil_mem_of_build (h : build ps eof runtime = .ok lx) :
    ∀ p ∈ ps, [] ∉ p.regex.lang :=
  (refusal_eq_none_iff.1 (refusal_of_build h)).2

theorem realizes_of_build (h : build ps eof runtime = .ok lx) : lx.Realizes ps eof := by
  obtain ⟨lx', hlx', hreal⟩ := exists_build (refusal_of_build h) eof runtime
  obtain rfl : lx = lx' := Except.ok.inj (h.symm.trans hlx')
  exact hreal

/-! ### The token loop -/

theorem Realizes.endToken (h : lx.Realizes ps eof) (pos : Nat) :
    lx.endToken pos = ⟨eof, "", pos, pos⟩ := by
  rw [Lexer.endToken, h.eof]

theorem Realizes.longest_of_munched (h : lx.Realizes ps eof) {w rest : List Char} {t : Nat}
    (hmunched : Munched ps w rest t) : lx.longest (w ++ rest) = some ⟨w, rest, t⟩ :=
  h.longest_eq_some_iff.2 ⟨rfl, hmunched⟩

theorem Realizes.mem_skip_iff (h : lx.Realizes ps eof) {t : Nat} : t ∈ lx.skip ↔ Skipped ps t := by
  rw [h.skip, mem_skipped]

theorem Realizes.decomposes_tokensFrom (h : lx.Realizes ps eof) (pos : Nat) (cs : List Char) :
    Decomposes ps eof pos cs (lx.tokensFrom pos cs) := by
  induction hn : cs.length using Nat.strong_induction_on generalizing pos cs with
  | _ n ih =>
    cases cs with
    | nil =>
      rw [tokensFrom_nil, h.endToken]
      exact .ending
    | cons c cs =>
      cases hfound : lx.longest (c :: cs) with
      | none =>
        rw [tokensFrom_of_none hfound]
        refine .stray (h.longest_eq_none_iff.1 hfound) (ih cs.length ?_ _ cs rfl)
        rw [← hn, List.length_cons]
        exact Nat.lt_succ_self _
      | some found =>
        obtain ⟨happend, hmunched⟩ := h.longest_eq_some_iff.1 hfound
        have hrest := ih found.rest.length (hn ▸ length_rest_lt_of_longest hfound)
          (pos + byteLength found.lexeme) found.rest rfl
        by_cases hskip : found.terminal ∈ lx.skip
        · rw [tokensFrom_of_skip hfound hskip, ← happend]
          exact .skipped hmunched (h.mem_skip_iff.1 hskip) hrest
        · rw [tokensFrom_of_match hfound hskip, ← happend]
          exact .token hmunched (fun hskip' => hskip (h.mem_skip_iff.2 hskip')) hrest

theorem Realizes.tokensFrom_of_decomposes (h : lx.Realizes ps eof) {pos : Nat} {cs : List Char}
    {toks : List (Except LexError Token)} (hcut : Decomposes ps eof pos cs toks) :
    lx.tokensFrom pos cs = toks := by
  induction hcut with
  | ending => rw [tokensFrom_nil, h.endToken]
  | token hmunched hskip hrest ih =>
    have hfound := h.longest_of_munched hmunched
    rw [tokensFrom_of_match hfound (fun hskip' => hskip (h.mem_skip_iff.1 hskip')), ih]
  | skipped hmunched hskip hrest ih =>
    have hfound := h.longest_of_munched hmunched
    rw [tokensFrom_of_skip hfound (h.mem_skip_iff.2 hskip), ih]
  | stray hnone hrest ih => rw [tokensFrom_of_none (h.longest_eq_none_iff.2 hnone), ih]

/-- A lexer is built from every list of patterns, unless it is empty or one of them matches the empty
text, and its tokens are the greedy decomposition of the input, which ends in one token at the end of
the input. -/
theorem build_tokens_iff (ps : List Pattern) (eof : Nat) (runtime : Runtime) (hne : ps ≠ [])
    (hps : ∀ p ∈ ps, [] ∉ p.regex.lang) : ∃ lx, build ps eof runtime = .ok lx ∧
      ∀ input : String,
        (∀ toks, lx.tokens input = toks ↔ Decomposes ps eof 0 input.toList toks) ∧
        ∃ front, lx.tokens input =
          front ++ [.ok ⟨eof, "", input.utf8ByteSize, input.utf8ByteSize⟩] := by
  obtain ⟨lx, hlx, hreal⟩ := exists_build (refusal_eq_none_iff.2 ⟨hne, hps⟩) eof runtime
  refine ⟨lx, hlx, fun input => ?_⟩
  have hcut : Decomposes ps eof 0 input.toList (lx.tokens input) :=
    hreal.decomposes_tokensFrom 0 input.toList
  refine ⟨fun toks => ⟨?_, hreal.tokensFrom_of_decomposes⟩, ?_⟩
  · rintro rfl
    exact hcut
  · obtain ⟨front, hfront⟩ := hcut.exists_ending
    rw [Nat.zero_add, ← utf8ByteSize_ofList, String.ofList_toList] at hfront
    exact ⟨front, hfront⟩

/-- Numbers and two relations, one of which begins with the other, with blanks in between. -/
def relations : List Pattern :=
  [⟨2, .many1 (.cls .digit), 0, false⟩, ⟨3, .char '<', 1, false⟩,
    ⟨4, .concat [.char '<', .optional (.char '=')], 2, false⟩, ⟨5, .many1 (.cls .space), 0, true⟩]

theorem build_tokens_iff_relations : ∃ lx, build relations 0 .tabular = .ok lx ∧
    ∀ input : String,
      (∀ toks, lx.tokens input = toks ↔ Decomposes relations 0 0 input.toList toks) ∧
      ∃ front, lx.tokens input =
        front ++ [.ok ⟨0, "", input.utf8ByteSize, input.utf8ByteSize⟩] := by
  refine build_tokens_iff relations 0 .tabular (by simp [relations]) ?_
  intro p hp hnil
  rw [Regex.lang, Regex.nil_mem_langOver] at hnil
  simp only [relations, List.mem_cons, List.not_mem_nil, or_false] at hp
  rcases hp with rfl | rfl | rfl | rfl
  all_goals exact absurd hnil (by decide)

end Lexer

end ShiftReduce
