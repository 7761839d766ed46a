import ShiftReduce.Proofs.Automaton.Fragment
import ShiftReduce.Proofs.Regex.NormalForm

/-!
# Fragments are isolated

What a fragment adds to an automaton is told by the edges that are there afterwards and were not
there before (`Nfa.Added`). None of them leads into the entry or to another earlier state, so a path
along added edges (`Nfa.Spells`) is one that is confined to new states. That the entry may carry
edges of other fragments, loops among them, makes no difference.

The letters along such a path are those of a text over the code points. The language of such texts
(`Regex.codeLang`) is carried over to letters leaf by leaf (`leavesMap_letterOf`), because every
letter between those of two bounds is the letter of a code point between the bounds.

The main statement is `Fragment.add_isolated`.
-/

namespace ShiftReduce

namespace Nfa

variable {m m' : Nfa} {entry p q : Nat} {label : Option Nat}

/-- There is an edge in `m'` that is not in `m`. -/
def Added (m m' : Nfa) (p : Nat) (label : Option Nat) (q : Nat) : Prop :=
  m'.HasEdge p label q ∧ ¬ m.HasEdge p label q

/-- There is a path along the edges `E` that spells the letters. -/
inductive Spells (E : Nat → Option Nat → Nat → Prop) (p : Nat) : List Nat → Nat → Prop
  | nil : Spells E p [] p
  | step {w : List Nat} {q r : Nat} (label : Option Nat) (h : Spells E p w q)
    (hedge : E q label r) : Spells E p (w ++ label.toList) r

/-- The edges that have been added are those that lead to new states. -/
theorem Extends.added_iff (h : Extends m m' entry) (hm : m.Closed) :
    Added m m' p label q ↔ m'.HasEdge p label q ∧ m.size ≤ q := by
  refine and_congr_right fun hedge => ?_
  constructor
  · intro hnew
    exact ((h.added hedge).resolve_left hnew).1
  · intro hq hold
    exact absurd (hm _ _ _ hold) (Nat.not_lt_of_le hq)

/-- Paths along added edges are those that are confined to new states. -/
theorem Extends.spells_added_iff (h : Extends m m' entry) (hm : m.Closed) {w : List Nat} :
    Spells (Added m m') p w q ↔ m'.Reads id m.size p w q := by
  constructor
  · intro hpath
    induction hpath with
    | nil => exact .nil
    | step label _ hedge ih =>
      obtain ⟨hedge, hq⟩ := (h.added_iff hm).1 hedge
      exact .step label ih (by rwa [Option.map_id]) hq
  · intro hpath
    induction hpath with
    | nil => exact .nil
    | step label _ hedge hq ih =>
      rw [Option.map_id] at hedge
      exact .step label ih ((h.added_iff hm).2 ⟨hedge, hq⟩)

end Nfa

/-! ### Texts of code points -/

/-- The code points that a one-character expression matches: those that its ranges cover. -/
def Regex.MatchesCode (r : Regex) (c : Fin charEnd) : Prop := Covered (r.charRanges.getD []) c

/-- The texts of code points that an expression matches. -/
def Regex.codeLang (r : Regex) : Language (Fin charEnd) := Regex.langOver Regex.MatchesCode r

namespace Alphabet

variable {a : Alphabet}

/-- Of the code points of a range between two bounds exactly the letters between theirs are met. -/
theorem Ordered.exists_letterOf_iff (ha : a.Ordered) {range : CodeRange}
    (hrange : range.1 ∈ a.bounds.toList ∧ range.2 ∈ a.bounds.toList) {d : Nat} :
    a.letterOf range.1 ≤ d ∧ d < a.letterOf range.2 ↔
      ∃ n, CodeRange.Covers range n ∧ a.letterOf n = d := by
  have hlow := ha.letterOf_le_iff hrange.1
  have hhigh := ha.letterOf_le_iff hrange.2
  constructor
  · rintro ⟨hle, hlt⟩
    -- the letter is that of its own bound
    have hd := ha.letterOf_getD (Nat.lt_of_lt_of_le hlt (a.letterOf_le_size _))
    generalize a.bounds[d]?.getD 0 = n at hd
    refine ⟨n, ⟨(hlow n).1 (by omega), Nat.lt_of_not_le fun hn => ?_⟩, hd⟩
    have := (hhigh n).2 hn
    omega
  · rintro ⟨n, ⟨hle, hlt⟩, rfl⟩
    refine ⟨(hlow n).2 hle, Nat.lt_of_not_le fun hn => ?_⟩
    exact absurd ((hhigh n).1 hn) (Nat.not_le_of_lt hlt)

end Alphabet

namespace Fragment

open Nfa

variable {a : Alphabet} {r : Regex}

/-- The letters that a leaf matches are those of the code points that it matches. -/
theorem leavesMap_letterOf (ha : a.Ordered) : Regex.LeavesMap
    (fun range => range.1 ∈ a.bounds.toList ∧ range.2 ∈ a.bounds.toList)
    (fun c : Fin charEnd => a.letterOf c) Regex.MatchesCode (MatchesLetter a id) := by
  intro leaf ranges hleaf hranges d
  obtain ⟨hnormal, hbelow⟩ := Regex.isNormal_charRanges hleaf
  simp only [MatchesLetter, Regex.MatchesCode, hleaf, Option.getD_some]
  constructor
  · rintro ⟨range, hmem, hd⟩
    obtain ⟨n, hn, hletter⟩ := (ha.exists_letterOf_iff (hranges range hmem)).1 hd
    have hcov : Covered ranges n := ⟨range, hmem, hn⟩
    exact ⟨⟨n, hnormal.belowEnd_iff.1 hbelow n hcov⟩, hcov, hletter⟩
  · rintro ⟨c, ⟨range, hmem, hc⟩, hletter⟩
    exact ⟨range, hmem, (ha.exists_letterOf_iff (hranges range hmem)).2 ⟨c, hc, hletter⟩⟩

/-- The words of letters that a fragment spells are the images of the texts of code points. -/
theorem langOver_letters (ha : a.Ordered) (hr : AtBounds a r.leafRanges) :
    Regex.langOver (MatchesLetter a id) r =
      Language.map (fun c : Fin charEnd => a.letterOf c) r.codeLang :=
  Regex.langOver_map (leavesMap_letterOf ha) r hr

/-- The fragment of an expression, added to any automaton at any entry over any alphabet that has the
bounds of the expression: along the edges that have been added, what is spelled on the way to the exit
are the letters of the texts that the expression matches. No edge has been added into the entry, which
is the exit only if nothing has been added; the edges leave the entry or new states and lead to new
states, and everything that was there is there still. -/
theorem add_isolated (ha : a.Ordered) (hr : AtBounds a r.leafRanges) {m m' : Nfa} (hm : m.Closed)
    {entry exit : Nat} (hentry : entry < m.size) (hadd : add a r entry m = (exit, m')) :
    (∀ w, Spells (Added m m') entry w exit ↔
      ∃ v ∈ r.codeLang, v.map (fun c : Fin charEnd => a.letterOf c) = w) ∧
    (∀ p label, ¬ Added m m' p label entry) ∧
    (exit = entry → m' = m) ∧
    (∀ p label q, Added m m' p label q →
      (p = entry ∨ m.size ≤ p ∧ p < m'.size) ∧ m.size ≤ q ∧ q < m'.size) ∧
    (∀ p label q, m.HasEdge p label q → m'.HasEdge p label q) ∧
    m'.accepts = m.accepts ∧ m'.Closed ∧ exit < m'.size := by
  obtain ⟨letters, hsize, hbounded⟩ := hm.exists_bounded a.size
  have hfragment : IsFragment letters id _ m entry (add a r entry m) :=
    builds_add hsize r m entry hbounded hentry
  rw [hadd, langOver_letters ha hr] at hfragment
  have hext : Extends m m' entry := hfragment.extends_
  refine ⟨fun w => ?_, ?_, ?_, ?_, fun p label q => hext.mono, hext.accepts,
    fun p label q => hfragment.bounded.target_lt, hfragment.exit_lt⟩
  · rw [hext.spells_added_iff hm]
    exact hfragment.reads w
  · intro p label hedge
    exact absurd hentry (Nat.not_lt_of_le ((hext.added_iff hm).1 hedge).2)
  · rintro rfl
    rcases hfragment.stays with heq | hge
    · exact (Prod.mk.inj heq).2
    · exact absurd hentry (Nat.not_lt_of_le hge)
  · rintro p label q ⟨hedge, hnew⟩
    obtain ⟨hq, hp⟩ := (hext.added hedge).resolve_left hnew
    exact ⟨hp.imp_right fun hp => ⟨hp, lt_size_of_hasEdge hedge⟩, hq, hfragment.bounded.target_lt hedge⟩

/-- An optional part that ends in a loop, and a character after it. -/
def optionalLoop : Regex :=
  .concat [.optional (.concat [.char 'a', .many (.char 'b')]), .char 'c']

/-- An automaton whose first state has a loop. -/
def looped : Nfa := Nfa.single.addSilent 0 0

theorem closed_looped : looped.Closed := by
  intro p label q hedge
  have hp : p < 1 := lt_size_of_hasEdge hedge
  obtain rfl : p = 0 := Nat.lt_one_iff.1 hp
  have hq := List.mem_singleton.1 hedge
  exact (congrArg Edge.target hq).trans_lt Nat.zero_lt_one

/-- Behind a state with a loop, the optional part is left out along added edges, none of which leads
back to the state. -/
theorem add_isolated_optional :
    let a := Alphabet.ofRegexes [optionalLoop]
    let r := add a optionalLoop 0 looped
    Spells (Added looped r.2) 0 [a.letterOf 99] r.1 ∧
      (∀ p label, ¬ Added looped r.2 p label 0) ∧ looped.HasEdge 0 none 0 := by
  have hbounds : AtBounds (Alphabet.ofRegexes [optionalLoop]) optionalLoop.leafRanges :=
    fun range hrange => Alphabet.mem_bounds_ofRegexes (List.mem_append_left _ hrange)
  obtain ⟨hspells, hentry, -⟩ := add_isolated (Alphabet.ordered_ofRegexes [optionalLoop]) hbounds
    closed_looped Nat.zero_lt_one (Prod.mk.eta.symm : add _ optionalLoop 0 looped = _)
  refine ⟨(hspells _).2 ⟨[⟨99, by decide⟩], ?_, rfl⟩, hentry, List.mem_singleton_self _⟩
  have hskipped : [] ∈ Regex.langOver Regex.MatchesCode
      (.optional (.concat [.char 'a', .many (.char 'b')])) :=
    (Regex.nil_mem_langOver _ _).2 rfl
  have hlast : Regex.MatchesCode (.char 'c') ⟨99, by decide⟩ :=
    ⟨(99, 100), List.mem_singleton_self _, Nat.le_refl _, Nat.lt_succ_self _⟩
  rw [Regex.codeLang, optionalLoop, Regex.langOver, Regex.concatOver, Regex.concatOver,
    Regex.concatOver, mul_one]
  exact ⟨[], hskipped, [_], ⟨_, hlast, rfl⟩, rfl⟩

end Fragment

end ShiftReduce
