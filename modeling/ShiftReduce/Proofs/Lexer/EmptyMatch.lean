import ShiftReduce.Proofs.Lexer.MaximalMunch

/-!
# Patterns that match the empty text

A lexer whose automaton accepts before anything has been read would not move on. Whether an expression
matches the empty text is computed from the expression, and that is also what its fragment does: the
exit is reached along silent edges exactly if the empty text is matched
(`exit_mem_closure_add_iff`). A lexer is refused on account of the first pattern that matches the
empty text (`build_eq_error_iff_firstEmpty`), and one that is built accepts nothing where it starts
(`startsRejecting_of_build`). `empty_match_exact` puts these together.
-/

namespace ShiftReduce

open Nfa

/-- The exit of the fragment of an expression, added to any automaton over any alphabet, is reached
from its entry along silent edges exactly if the expression matches the empty text. -/
theorem Fragment.exit_mem_closure_add_iff (a : Alphabet) (r : Regex) {m : Nfa} (hm : m.Closed)
    {entry : Nat} (hentry : entry < m.size) :
    (add a r entry m).1 ∈ (add a r entry m).2.closure (IdSet.single entry) ↔ [] ∈ r.lang := by
  obtain ⟨letters, hsize, hbounded⟩ := hm.exists_bounded a.size
  have hfragment : IsFragment letters Char.toNat
      (Regex.langOver (MatchesLetter a Char.toNat) r) m entry (add a r entry m) :=
    builds_add hsize r m entry hbounded hentry
  rw [hfragment.exit_mem_closure_iff hbounded hentry, Regex.nil_mem_langOver, Regex.acceptsEmpty_iff]

/-- `p` is the first of the patterns that match the empty text. -/
def FirstEmpty (ps : List Pattern) (p : Pattern) : Prop :=
  ∃ front rest, ps = front ++ p :: rest ∧ [] ∈ p.regex.lang ∧ ∀ q ∈ front, [] ∉ q.regex.lang

theorem FirstEmpty.exists_mem {ps : List Pattern} {p : Pattern} (h : FirstEmpty ps p) :
    ∃ q ∈ ps, [] ∈ q.regex.lang := by
  obtain ⟨front, rest, rfl, hp, -⟩ := h
  exact ⟨p, List.mem_append_right _ List.mem_cons_self, hp⟩

/-- Nothing is accepted where the automaton starts: in no state of the set before anything is read,
or in the state that stands for this set. -/
def LexerAutomaton.StartsRejecting : LexerAutomaton → Prop
  | .tabular t => t.recognizer.accept t.recognizer.start = none
  | .nfa m => ∀ x ∈ m.startSet, m.acceptOf x = none

namespace Lexer

variable {lx : Lexer} {ps : List Pattern} {eof : Nat} {runtime : Runtime} {e : LexerError}

/-! ### Which lexers are refused -/

/-- A list of patterns is refused on account of the first one that matches the empty text. -/
theorem refusal_eq_some_iff (hps : ps ≠ []) : refusal ps = some e ↔
    ∃ p, FirstEmpty ps p ∧ e = .invalidPattern p.terminal ⟨.matchesEmpty, 0⟩ := by
  have hnil : ¬ ps.isEmpty = true := fun h => hps (List.isEmpty_iff.1 h)
  rw [refusal, if_neg hnil, Option.map_eq_some_iff]
  simp only [List.find?_eq_some_iff_append, Bool.not_eq_true', ← Bool.not_eq_true,
    Regex.acceptsEmpty_iff]
  constructor
  · rintro ⟨p, ⟨hp, front, rest, heq, hfront⟩, rfl⟩
    exact ⟨p, ⟨front, rest, heq, hp, hfront⟩, rfl⟩
  · rintro ⟨p, ⟨front, rest, heq, hp, hfront⟩, rfl⟩
    exact ⟨p, ⟨hp, front, rest, heq, hfront⟩, rfl⟩

theorem build_eq_error_iff_firstEmpty (hps : ps ≠ []) : build ps eof runtime = .error e ↔
    ∃ p, FirstEmpty ps p ∧ e = .invalidPattern p.terminal ⟨.matchesEmpty, 0⟩ :=
  build_eq_error_iff.trans (refusal_eq_some_iff hps)

/-- A lexer is refused exactly if one of its patterns matches the empty text. -/
theorem exists_error_iff (hps : ps ≠ []) :
    (∃ e, build ps eof runtime = .error e) ↔ ∃ p ∈ ps, [] ∈ p.regex.lang := by
  constructor
  · rintro ⟨e, he⟩
    obtain ⟨p, hfirst, -⟩ := (build_eq_error_iff_firstEmpty hps).1 he
    exact hfirst.exists_mem
  · intro hsome
    cases href : refusal ps with
    | some e => exact ⟨e, build_eq_error_iff.2 href⟩
    | none =>
      obtain ⟨p, hp, hnil⟩ := hsome
      exact absurd hnil ((refusal_eq_none_iff.1 href).2 p hp)

/-! ### Where a lexer starts -/

/-- The states in which the automaton of the patterns starts accept nothing, unless one of the
patterns matches the empty text. -/
theorem acceptOf_startSet (hps : ∀ p ∈ ps, [] ∉ p.regex.lang) :
    ∀ x ∈ (combine (alphabetOf ps) ps).startSet, (combine (alphabetOf ps) ps).acceptOf x = none := by
  intro x hx
  refine Option.eq_none_iff_forall_ne_some.2 fun b hb => ?_
  obtain ⟨i, p, hp, -, -, hlang⟩ := (combined_combine ps).exists_pattern hb
  exact hps p (List.mem_of_getElem? hp) ((hlang []).1 hx)

/-- The first state of the table accepts what the automaton of the patterns does before anything is
read. -/
theorem accept_start_ofNfa (ps : List Pattern) :
    (Displaced.ofDfa (Dfa.ofNfa (combine (alphabetOf ps) ps)) (alphabetOf ps).size).recognizer.accept
      0 = terminalOf ps [] := by
  have hcombined := combined_combine ps
  have hstart := Displaced.acceptsAfter_ofDfa hcombined.bounded hcombined.pos
    (alphabetOf ps).letter []
  rwa [Recognizer.acceptsAfter_nil] at hstart

/-- A lexer that has been built accepts nothing where it starts, whichever way its automaton is
run. -/
theorem startsRejecting_of_build (h : build ps eof runtime = .ok lx) :
    lx.automaton.StartsRejecting := by
  have hps := not_nil_mem_of_build h
  rw [build, construct, refusal_of_build h] at h
  cases runtime with
  | nfa =>
    obtain rfl := Except.ok.inj h
    exact acceptOf_startSet hps
  | tabular =>
    obtain rfl := Except.ok.inj h
    have hnone : ¬ MatchesSome ps [] := by
      rintro ⟨p, hp, hnil⟩
      exact hps p hp hnil
    exact (accept_start_ofNfa ps).trans (terminalOf_eq_none_iff.2 hnone)

/-- The check for the empty text is exact. What is computed from an expression is whether it matches
the empty text, and whether its fragment, added to any automaton over any alphabet, can be gone
through along silent edges. A lexer is refused exactly if one of its patterns matches the empty text,
on account of the first of them, and one that is built accepts nothing where it starts. -/
theorem empty_match_exact :
    (∀ r : Regex, (r.acceptsEmpty = true ↔ [] ∈ r.lang) ∧
      ∀ (a : Alphabet) (m : Nfa) (entry : Nat), m.Closed → entry < m.size →
        ([] ∈ r.lang ↔ (Fragment.add a r entry m).1 ∈
          (Fragment.add a r entry m).2.closure (IdSet.single entry))) ∧
    ∀ (ps : List Pattern) (eof : Nat) (runtime : Runtime), ps ≠ [] →
      ((∃ e, build ps eof runtime = .error e) ↔ ∃ p ∈ ps, [] ∈ p.regex.lang) ∧
      (∀ e, build ps eof runtime = .error e ↔
        ∃ p, FirstEmpty ps p ∧ e = .invalidPattern p.terminal ⟨.matchesEmpty, 0⟩) ∧
      ∀ lx, build ps eof runtime = .ok lx → lx.automaton.StartsRejecting ∧
        ∀ x ∈ (combine (alphabetOf ps) ps).startSet,
          (combine (alphabetOf ps) ps).acceptOf x = none := by
  refine ⟨fun r => ⟨r.acceptsEmpty_iff, ?_⟩, fun ps eof runtime hps =>
    ⟨exists_error_iff hps, ?_, ?_⟩⟩
  · intro a m entry hm hentry
    exact (Fragment.exit_mem_closure_add_iff a r hm hentry).symm
  · intro e
    exact build_eq_error_iff_firstEmpty hps
  · intro lx hlx
    exact ⟨startsRejecting_of_build hlx, acceptOf_startSet (not_nil_mem_of_build hlx)⟩

/-- A loop in a loop, at least three times and at most once. -/
def nestedLoops : Regex := .repeated (.many1 (.many (.char 'a'))) 3 (some 1)

/-- No alternatives, which match nothing, and two patterns that match the empty text. -/
def degenerate : List Pattern :=
  [⟨2, .alt [], 0, false⟩, ⟨3, nestedLoops, 1, false⟩, ⟨4, .concat [], 2, false⟩]

theorem empty_match_exact_degenerate :
    (let r := Fragment.add (alphabetOf degenerate) nestedLoops 0 Nfa.single
     r.1 ∈ r.2.closure (IdSet.single 0)) ∧
    build degenerate 0 .tabular = .error (.invalidPattern 3 ⟨.matchesEmpty, 0⟩) ∧
    ∃ lx, build relations 0 .tabular = .ok lx ∧ lx.automaton.StartsRejecting := by
  obtain ⟨hregex, hlexer⟩ := empty_match_exact
  obtain ⟨hempty, hexit⟩ := hregex nestedLoops
  have hnil : [] ∈ nestedLoops.lang := hempty.1 rfl
  have hnone : [] ∉ (Regex.alt []).lang := fun h => absurd ((hregex _).1.2 h) (by decide)
  have hclosed : Nfa.single.Closed := fun p label q => (combined_single 0 Char.toNat).bounded.target_lt
  refine ⟨(hexit _ Nfa.single 0 hclosed Nat.zero_lt_one).1 hnil, ?_, ?_⟩
  · refine ((hlexer degenerate 0 .tabular (List.cons_ne_nil _ _)).2.1 _).2
      ⟨⟨3, nestedLoops, 1, false⟩, ⟨[⟨2, .alt [], 0, false⟩], [⟨4, .concat [], 2, false⟩], rfl, hnil, ?_⟩,
        rfl⟩
    intro q hq
    rw [List.mem_singleton.1 hq]
    exact hnone
  · obtain ⟨lx, hlx, -⟩ := exists_build (show refusal relations = none by decide) 0 .tabular
    exact ⟨lx, hlx, ((hlexer relations 0 .tabular (List.cons_ne_nil _ _)).2.2 lx hlx).1⟩

end Lexer

end ShiftReduce
