import Mathlib.Order.Bounds.Defs
import ShiftReduce.Proofs.Lexer.Patterns
import ShiftReduce.Proofs.Regex.NormalForm

/-!
# The letters of a lexer lose nothing

The bounds of an alphabet are collected along one recursion over the patterns, and the edges of the
automaton are made along another. Both visit the one-character expressions that occur in a pattern
(`Regex.OccursIn`, `Regex.mem_leafRanges_iff`), and no other. So every range that an edge is made for
begins and ends at bounds of the alphabet, and the letter of a character lies between the letters of
these bounds exactly if the expression matches the character.

The bounds begin with zero and end with `charEnd`, since no range goes beyond it, and the letter of a
code point is the greatest index of a bound that does not exceed it (`Ordered.isGreatest_letterOf`).

The automaton of a lexer sees the letters of a text only, so texts with the same letters are matched
by the same patterns (`Lexer.mem_lang_congr`). The main statement is `Lexer.alphabetOf_exact`.
-/

namespace ShiftReduce

/-! ### One-character expressions in an expression -/

namespace Regex

/-- The expression is a part of another one, or that expression itself. -/
inductive OccursIn (r : Regex) : Regex → Prop
  | self : OccursIn r r
  | alt {s : Regex} {rs : List Regex} (hs : s ∈ rs) (h : OccursIn r s) : OccursIn r (.alt rs)
  | concat {s : Regex} {rs : List Regex} (hs : s ∈ rs) (h : OccursIn r s) : OccursIn r (.concat rs)
  | optional {s : Regex} (h : OccursIn r s) : OccursIn r (.optional s)
  | many {s : Regex} (h : OccursIn r s) : OccursIn r (.many s)
  | many1 {s : Regex} (h : OccursIn r s) : OccursIn r (.many1 s)
  | repeated {s : Regex} (h : OccursIn r s) (min : Nat) (max : Option Nat) :
    OccursIn r (.repeated s min max)

/-- The range is one of a one-character expression that occurs in `s`. -/
def HasLeafRange (s : Regex) (range : CodeRange) : Prop :=
  ∃ r ranges, OccursIn r s ∧ charRanges r = some ranges ∧ range ∈ ranges

variable {r s : Regex} {ranges : List CodeRange} {range : CodeRange}

theorem leafRanges_of_charRanges (h : r.charRanges = some ranges) : r.leafRanges = ranges := by
  cases r with
  | any | char | set | cls => rw [leafRanges, h, Option.getD_some]
  | empty | alt | concat | optional | many | many1 | repeated =>
    exact absurd h (by simp [charRanges])

/-- No one-character expression that occurs is left out. -/
theorem OccursIn.mem_leafRanges (h : OccursIn r s) (hr : r.charRanges = some ranges)
    (hrange : range ∈ ranges) : range ∈ s.leafRanges := by
  induction h with
  | self => rwa [leafRanges_of_charRanges hr]
  | alt hs _ ih => exact Lexer.mem_allLeafRanges hs ih
  | concat hs _ ih => exact Lexer.mem_allLeafRanges hs ih
  | optional _ ih => exact ih
  | many _ ih => exact ih
  | many1 _ ih => exact ih
  | repeated _ _ _ ih => exact ih

theorem hasLeafRange_of_charRanges (h : s.charRanges = some ranges)
    (hrange : range ∈ s.charRanges.getD []) : s.HasLeafRange range := by
  rw [h, Option.getD_some] at hrange
  exact ⟨s, ranges, .self, h, hrange⟩

mutual

/-- All ranges that are collected are those of one-character expressions that occur. -/
theorem hasLeafRange_of_mem : ∀ s : Regex, range ∈ s.leafRanges → s.HasLeafRange range
  | .empty, h => absurd h List.not_mem_nil
  | .any, h => hasLeafRange_of_charRanges rfl h
  | .char _, h => hasLeafRange_of_charRanges rfl h
  | .set _ _, h => hasLeafRange_of_charRanges rfl h
  | .cls _, h => hasLeafRange_of_charRanges rfl h
  | .alt rs, h => by
    obtain ⟨s, hs, r, ranges, hocc, hr⟩ := exists_hasLeafRange_of_mem rs h
    exact ⟨r, ranges, .alt hs hocc, hr⟩
  | .concat rs, h => by
    obtain ⟨s, hs, r, ranges, hocc, hr⟩ := exists_hasLeafRange_of_mem rs h
    exact ⟨r, ranges, .concat hs hocc, hr⟩
  | .optional s, h => by
    obtain ⟨r, ranges, hocc, hr⟩ := hasLeafRange_of_mem s h
    exact ⟨r, ranges, .optional hocc, hr⟩
  | .many s, h => by
    obtain ⟨r, ranges, hocc, hr⟩ := hasLeafRange_of_mem s h
    exact ⟨r, ranges, .many hocc, hr⟩
  | .many1 s, h => by
    obtain ⟨r, ranges, hocc, hr⟩ := hasLeafRange_of_mem s h
    exact ⟨r, ranges, .many1 hocc, hr⟩
  | .repeated s min max, h => by
    obtain ⟨r, ranges, hocc, hr⟩ := hasLeafRange_of_mem s h
    exact ⟨r, ranges, .repeated hocc min max, hr⟩

theorem exists_hasLeafRange_of_mem : ∀ rs : List Regex, range ∈ allLeafRanges rs →
    ∃ s ∈ rs, s.HasLeafRange range
  | [], h => absurd h List.not_mem_nil
  | s :: rs, h => by
    rw [allLeafRanges, List.mem_append] at h
    rcases h with h | h
    · exact ⟨s, List.mem_cons_self, hasLeafRange_of_mem s h⟩
    · obtain ⟨s', hs', hrange⟩ := exists_hasLeafRange_of_mem rs h
      exact ⟨s', List.mem_cons_of_mem s hs', hrange⟩

end

/-- The ranges that are collected are those of the one-character expressions that occur. -/
theorem mem_leafRanges_iff : range ∈ s.leafRanges ↔ s.HasLeafRange range := by
  refine ⟨hasLeafRange_of_mem s, ?_⟩
  rintro ⟨r, ranges, hocc, hr, hrange⟩
  exact hocc.mem_leafRanges hr hrange

/-- No range goes beyond the end of the code points. -/
theorem leafRanges_le (h : range ∈ s.leafRanges) : range.1 ≤ charEnd ∧ range.2 ≤ charEnd := by
  obtain ⟨r, ranges, -, hr, hrange⟩ := mem_leafRanges_iff.1 h
  obtain ⟨hnormal, hbelow⟩ := isNormal_charRanges hr
  have hle := hbelow range hrange
  exact ⟨Nat.le_trans (Nat.le_of_lt (hnormal.nonempty range hrange)) hle, hle⟩

end Regex

/-! ### The bounds -/

namespace Alphabet

variable {a : Alphabet}

theorem head?_eq_some_of_pairwise {R : Nat → Nat → Prop} {l : List Nat} {n : Nat} (h : l.Pairwise R)
    (hn : n ∈ l) (hfirst : ∀ m ∈ l, ¬ R m n) : l.head? = some n := by
  cases l with
  | nil => exact absurd hn List.not_mem_nil
  | cons m ms =>
    rcases List.mem_cons.1 hn with rfl | hn
    · rfl
    · exact absurd ((List.pairwise_cons.1 h).1 n hn) (hfirst m List.mem_cons_self)

/-- The first bound is zero. -/
theorem Ordered.head?_bounds (h : a.Ordered) : a.bounds.toList.head? = some 0 :=
  head?_eq_some_of_pairwise h.ascending h.zero fun m _ => Nat.not_lt_zero m

/-- If no bound exceeds `charEnd`, it is the last one. -/
theorem Ordered.getLast?_bounds (h : a.Ordered) (hend : charEnd ∈ a.bounds.toList)
    (hle : ∀ n ∈ a.bounds.toList, n ≤ charEnd) : a.bounds.toList.getLast? = some charEnd := by
  rw [← List.head?_reverse]
  refine head?_eq_some_of_pairwise (List.pairwise_reverse.2 h.ascending) (List.mem_reverse.2 hend) ?_
  intro m hm
  exact Nat.not_lt_of_le (hle m (List.mem_reverse.1 hm))

/-- The letter of a code point is the greatest index of a bound that does not exceed it. -/
theorem Ordered.isGreatest_letterOf (h : a.Ordered) (n : Nat) :
    IsGreatest {i | ∃ bound, a.bounds[i]? = some bound ∧ bound ≤ n} (a.letterOf n) := by
  obtain ⟨hlt, hiff⟩ := h.le_letterOf_iff n
  constructor
  · have hbound := (hiff _ hlt).1 (Nat.le_refl _)
    rw [Array.getElem?_eq_getElem hlt, Option.getD_some] at hbound
    exact ⟨_, Array.getElem?_eq_getElem hlt, hbound⟩
  · rintro i ⟨bound, hget, hle⟩
    refine (hiff i (Array.getElem?_eq_some_iff.1 hget).1).2 ?_
    rwa [hget, Option.getD_some]

theorem bounds_ofRegexes_le {rs : List Regex} {n : Nat}
    (hn : n ∈ (ofRegexes rs).bounds.toList) : n ≤ charEnd := by
  rcases ((boundsOf_spec rs).2 n).1 hn with (rfl | rfl) | ⟨range, hrange, hn⟩
  · exact Nat.zero_le _
  · exact Nat.le_refl _
  · obtain ⟨s, -, hleaf⟩ := Regex.exists_hasLeafRange_of_mem rs hrange
    obtain ⟨hlo, hhi⟩ := Regex.leafRanges_le (Regex.mem_leafRanges_iff.2 hleaf)
    rcases hn with rfl | rfl
    · exact hlo
    · exact hhi

end Alphabet

/-! ### Letters of a one-character expression -/

namespace Fragment

open Nfa

variable {a : Alphabet} {r : Regex} {ranges : List CodeRange}

theorem add_of_charRanges (hr : r.charRanges = some ranges) : add a r = addLeaf a ranges := by
  cases r with
  | any | char | set | cls => rw [add, hr, Option.getD_some]
  | empty | alt | concat | optional | many | many1 | repeated =>
    exact absurd hr (by simp [Regex.charRanges])

/-- The fragment of a one-character expression has an edge for each letter in its ranges. -/
theorem hasEdge_add_of_charRanges (hr : r.charRanges = some ranges) {m : Nfa} (hm : m.Closed)
    {entry b : Nat} (hentry : entry < m.size) :
    (add a r entry m).2.HasEdge entry (some b) (add a r entry m).1 ↔ InRanges a id ranges b := by
  have hold : ¬ m.addState.HasEdge entry (some b) m.size := fun hedge =>
    Nat.lt_irrefl _ (hm _ _ _ (hasEdge_addState.1 hedge))
  obtain ⟨-, -, hedge⟩ := foldl_addLetters (m := m.addState) (q := m.size) a
    (show entry < m.addState.size by rw [size_addState]; omega) ranges
  rw [add_of_charRanges hr]
  refine hedge.trans ((or_iff_right hold).trans ?_)
  constructor
  · rintro ⟨-, ⟨range, hrange, b', hb', heq⟩, -⟩
    obtain rfl := Option.some.inj heq
    exact ⟨range, hrange, mem_lettersOf.1 hb'⟩
  · rintro ⟨range, hrange, hb⟩
    exact ⟨rfl, ⟨range, hrange, b, mem_lettersOf.2 hb, rfl⟩, rfl⟩

end Fragment

namespace Lexer

open Fragment

variable {ps : List Pattern} {p : Pattern}

/-- The ranges of a one-character expression that occurs in a pattern begin and end at bounds of the
alphabet. -/
theorem atBounds_of_occursIn (hp : p ∈ ps) {r : Regex} (hr : r.OccursIn p.regex)
    {ranges : List CodeRange} (hranges : r.charRanges = some ranges) :
    AtBounds (alphabetOf ps) ranges := fun _ hrange =>
  Alphabet.mem_bounds_ofRegexes
    (mem_allLeafRanges (List.mem_map_of_mem hp) (hr.mem_leafRanges hranges hrange))

/-- A pattern does not tell texts with the same letters apart. -/
theorem mem_lang_congr (hp : p ∈ ps) {w w' : List Char}
    (hw : w.map (alphabetOf ps).letter = w'.map (alphabetOf ps).letter) :
    w ∈ p.regex.lang ↔ w' ∈ p.regex.lang := by
  obtain ⟨i, hi⟩ := List.mem_iff_getElem?.1 hp
  obtain ⟨x, -, hlang⟩ := (combined_combine ps).exists_exit hi
  rw [← hlang w, hw, hlang w']

/-- The alphabet of a list of patterns tells apart what the patterns tell apart. Its bounds ascend from
zero to `charEnd`, and the letter of a code point is the greatest index of a bound that does not exceed
it. A one-character expression that occurs in a pattern matches a character exactly if the letter of
the character lies between those of the bounds of one of its ranges, which is to say, exactly if its
fragment has an edge for the letter. Texts with the same letters are matched by the same patterns, so
a character in a text can be replaced by any other one with the same letter. -/
theorem alphabetOf_exact (ps : List Pattern) :
    ((alphabetOf ps).bounds.toList.Pairwise (· < ·) ∧
      (alphabetOf ps).bounds.toList.head? = some 0 ∧
      (alphabetOf ps).bounds.toList.getLast? = some charEnd) ∧
    (∀ n, IsGreatest {i | ∃ bound, (alphabetOf ps).bounds[i]? = some bound ∧ bound ≤ n}
      ((alphabetOf ps).letterOf n)) ∧
    (∀ p ∈ ps, ∀ r : Regex, r.OccursIn p.regex → ∀ ranges, r.charRanges = some ranges → ∀ c : Char,
      ((∃ range ∈ ranges, (alphabetOf ps).letterOf range.1 ≤ (alphabetOf ps).letter c ∧
        (alphabetOf ps).letter c < (alphabetOf ps).letterOf range.2) ↔ r.MatchesChar c) ∧
      ∀ (m : Nfa) (entry : Nat), m.Closed → entry < m.size →
        ((add (alphabetOf ps) r entry m).2.HasEdge entry (some ((alphabetOf ps).letter c))
          (add (alphabetOf ps) r entry m).1 ↔ r.MatchesChar c)) ∧
    ∀ p ∈ ps, ∀ before after : List Char, ∀ c d : Char,
      (alphabetOf ps).letter c = (alphabetOf ps).letter d →
        (before ++ c :: after ∈ p.regex.lang ↔ before ++ d :: after ∈ p.regex.lang) := by
  have hordered : (alphabetOf ps).Ordered := Alphabet.ordered_ofRegexes (ps.map Pattern.regex)
  have hend : charEnd ∈ (alphabetOf ps).bounds.toList :=
    ((Alphabet.boundsOf_spec _).2 charEnd).2 (Or.inl (Or.inr rfl))
  refine ⟨⟨hordered.ascending, hordered.head?_bounds,
    hordered.getLast?_bounds hend fun n => Alphabet.bounds_ofRegexes_le⟩,
    hordered.isGreatest_letterOf, ?_, ?_⟩
  · intro p hp r hr ranges hranges c
    have hmatches := separates_letter hordered r ranges hranges (atBounds_of_occursIn hp hr hranges) c
    refine ⟨hmatches.symm, fun m entry hm hentry => ?_⟩
    exact (hasEdge_add_of_charRanges hranges hm hentry).trans hmatches.symm
  · intro p hp before after c d hcd
    refine mem_lang_congr hp ?_
    rw [List.map_append, List.map_append, List.map_cons, List.map_cons, hcd]

end Lexer

end ShiftReduce
