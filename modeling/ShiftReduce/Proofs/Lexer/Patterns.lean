import ShiftReduce.Lexer.Basic
import ShiftReduce.Proofs.Regex.Language
import ShiftReduce.Proofs.Automaton.Fragment

/-!
# The automaton of the patterns

Each pattern adds a fragment behind the first state, and its exit is the state that accepts for it.
The exits are numbered in the order of the patterns, so that the lowest of them belongs to the pattern
that comes first. `Combined` is what adding a pattern keeps. From it follows what the automaton
accepts after a text: the terminal of the pattern to which the text is attributed
(`Combined.attributed`, `Combined.not_mem_lang`).
-/

namespace ShiftReduce

open Nfa Fragment

/-- The text is attributed to the terminal `t`: of the patterns that match it, the first one with the
smallest priority has this terminal. -/
def Attributed (ps : List Pattern) (w : List Char) (t : Nat) : Prop :=
  ∃ (i : Nat) (p : Pattern), ps[i]? = some p ∧ p.terminal = t ∧ w ∈ p.regex.lang ∧
    ∀ (j : Nat) (q : Pattern), ps[j]? = some q → w ∈ q.regex.lang →
      p.priority ≤ q.priority ∧ (j < i → p.priority < q.priority)

theorem Attributed.exists_pattern {ps : List Pattern} {w : List Char} {t : Nat}
    (h : Attributed ps w t) : ∃ p ∈ ps, p.terminal = t ∧ w ∈ p.regex.lang := by
  obtain ⟨i, p, hp, ht, hw, -⟩ := h
  exact ⟨p, List.mem_of_getElem? hp, ht, hw⟩

theorem Attributed.eq {ps : List Pattern} {w : List Char} {t t' : Nat} (h : Attributed ps w t)
    (h' : Attributed ps w t') : t = t' := by
  obtain ⟨i, p, hp, rfl, hw, hbest⟩ := h
  obtain ⟨i', p', hp', rfl, hw', hbest'⟩ := h'
  obtain ⟨hle, hlt⟩ := hbest i' p' hp' hw'
  obtain ⟨hle', hlt'⟩ := hbest' i p hp hw
  obtain rfl : i = i' := by
    rcases Nat.lt_trichotomy i i' with h | h | h
    · exact absurd (hlt' h) (Nat.not_lt_of_le hle)
    · exact h
    · exact absurd (hlt h) (Nat.not_lt_of_le hle')
  rw [Option.some.inj (hp.symm.trans hp')]

namespace Lexer

variable {letters : Nat} {letter : Char → Nat} {m : Nfa} {ps : List Pattern}

/-- The accepting state `acc` is the exit of the pattern `p`. -/
def IsExit (m : Nfa) (letter : Char → Nat) (acc : Nat × Accept) (p : Pattern) : Prop :=
  acc.2 = ⟨p.priority, p.terminal⟩ ∧ ∀ w, m.Reads letter 0 0 w acc.1 ↔ w ∈ p.regex.lang

/-- The automaton has one exit for each pattern, in the order of the patterns. -/
structure Combined (letters : Nat) (letter : Char → Nat) (ps : List Pattern) (m : Nfa) : Prop where
  bounded : m.Bounded letters
  pos : 0 < m.size
  first : ∀ {p label}, ¬ m.HasEdge p label 0
  exit_lt : ∀ acc ∈ m.accepts, acc.1 < m.size
  ascending : m.accepts.Pairwise fun acc acc' => acc.1 < acc'.1
  length : m.accepts.length = ps.length
  exits : ∀ {i : Nat} {acc p}, m.accepts[i]? = some acc → ps[i]? = some p → IsExit m letter acc p

theorem combined_single (letters : Nat) (letter : Char → Nat) :
    Combined letters letter [] Nfa.single := by
  have hedge : ∀ {p label q}, ¬ Nfa.single.HasEdge p label q := by
    intro p label q h
    cases p with
    | zero => exact absurd h List.not_mem_nil
    | succ p => exact absurd h List.not_mem_nil
  exact
    { bounded := { target_lt := fun h => absurd h hedge, letter_lt := fun h => absurd h hedge }
      pos := Nat.zero_lt_one
      first := hedge
      exit_lt := fun acc h => absurd h List.not_mem_nil
      ascending := List.Pairwise.nil
      length := rfl
      exits := fun h => absurd h (by simp [Nfa.single]) }

/-- The fragment of a pattern, together with the silent edge to it. -/
theorem isFragment_pattern {L : Language Char} {b : Builder} (hb : Builds letters letter L b)
    (hm : m.Bounded letters) (hpos : 0 < m.size) :
    IsFragment letters letter L m 0 (b m.size (enter m 0)) ∧
      m.size ≤ (b m.size (enter m 0)).1 := by
  obtain ⟨hjoin, hnil⟩ := joining_enter letter hm hpos
  have hedge : IsFragment letters letter 1 m 0 (m.size, enter m 0) := by
    refine hjoin.isFragment fun w => ?_
    rw [hnil, Language.mem_one]
  have hinner := hb (enter m 0) m.size (bounded_enter hm hpos) (by rw [size_enter]; omega)
  have hseq := hedge.seq hpos hinner
  rw [one_mul] at hseq
  refine ⟨hseq, ?_⟩
  have hexit := hinner.exit
  rw [size_enter] at hexit
  omega

theorem Combined.reads_first (h : Combined letters letter ps m) {w : List Char}
    (hread : m.Reads letter 0 0 w 0) : w = [] := by
  generalize hq : (0 : Nat) = q at hread
  cases hread with
  | nil => rfl
  | step label _ hedge _ =>
    rw [← hq] at hedge
    exact absurd hedge h.first

/-- One more pattern. -/
theorem Combined.addPattern {a : Alphabet} (h : Combined a.size letter ps m) {p : Pattern}
    (hp : Builds a.size letter p.regex.lang (Fragment.add a p.regex)) :
    Combined a.size letter (ps ++ [p]) (Lexer.addPattern a m p) := by
  obtain ⟨hfragment, hge⟩ := isFragment_pattern hp h.bounded h.pos
  have hadd : Lexer.addPattern a m p =
      (Fragment.add a p.regex m.size (enter m 0)).2.markAccept
        (Fragment.add a p.regex m.size (enter m 0)).1 ⟨p.priority, p.terminal⟩ := rfl
  rw [hadd]
  generalize Fragment.add a p.regex m.size (enter m 0) = r at hfragment hge ⊢
  obtain ⟨exit, m'⟩ := r
  have hext : Extends m m' 0 := hfragment.extends_
  have hbounded : m'.Bounded a.size := hfragment.bounded
  have hlt : exit < m'.size := hfragment.exit_lt
  have hreads : ∀ w, m'.Reads letter m.size 0 w exit ↔ w ∈ p.regex.lang := hfragment.reads
  have haccepts : (m'.markAccept exit ⟨p.priority, p.terminal⟩).accepts =
      m.accepts ++ [(exit, ⟨p.priority, p.terminal⟩)] := by
    rw [markAccept, hext.accepts]
  refine
    { bounded := ?_, pos := ?_, first := ?_, exit_lt := ?_, ascending := ?_, length := ?_,
      exits := ?_ }
  · exact { target_lt := hbounded.target_lt, letter_lt := hbounded.letter_lt }
  · exact Nat.lt_of_lt_of_le h.pos hext.size_le
  · intro q label hedge
    rcases hext.added hedge with hold | ⟨hnew, -⟩
    · exact h.first hold
    · exact absurd h.pos (Nat.not_lt_of_le hnew)
  · intro acc hacc
    rw [haccepts, List.mem_append, List.mem_singleton] at hacc
    rcases hacc with hacc | rfl
    · exact Nat.lt_of_lt_of_le (h.exit_lt acc hacc) hext.size_le
    · exact hlt
  · rw [haccepts]
    refine List.pairwise_append.2 ⟨h.ascending, List.pairwise_singleton _ _, ?_⟩
    intro acc hacc acc' hacc'
    rw [List.mem_singleton.1 hacc']
    exact Nat.lt_of_lt_of_le (h.exit_lt acc hacc) hge
  · rw [haccepts, List.length_append, List.length_append, h.length]
    rfl
  · intro i acc p' hacc hp'
    rw [haccepts] at hacc
    by_cases hi : i < ps.length
    · -- the exits before are reached as before
      rw [List.getElem?_append_left (by rw [h.length]; exact hi)] at hacc
      rw [List.getElem?_append_left hi] at hp'
      obtain ⟨hsnd, hold⟩ := h.exits hacc hp'
      refine ⟨hsnd, fun w => ?_⟩
      rw [reads_markAccept, ← hold]
      constructor
      · intro hread
        rcases hread.split hext h.bounded h.pos with ⟨-, hread⟩ | ⟨hnew, -⟩
        · exact hread
        · exact absurd (h.exit_lt acc (List.mem_of_getElem? hacc)) (Nat.not_lt_of_le hnew)
      · exact Reads.mono hext.mono (Nat.le_refl 0)
    · obtain rfl : i = ps.length := by
        have := (List.getElem?_eq_some_iff.1 hp').1
        rw [List.length_append, List.length_singleton] at this
        omega
      rw [List.getElem?_concat_length, Option.some.injEq] at hp'
      rw [← h.length, List.getElem?_concat_length, Option.some.injEq] at hacc
      subst hp' hacc
      refine ⟨rfl, fun w => ?_⟩
      rw [reads_markAccept, ← hreads]
      constructor
      · intro hread
        rcases hread.split hext h.bounded h.pos with ⟨hold, -⟩ | ⟨-, u, v, rfl, hu, hv⟩
        · exact absurd hold (Nat.not_lt_of_le hge)
        · rw [h.reads_first hu]
          exact hv
      · exact Reads.mono (fun hedge => hedge) (Nat.zero_le _)

/-! ### All patterns -/

/-- Characters with the same letter are matched alike by the expressions of the patterns. -/
theorem separates_letter {a : Alphabet} (ha : a.Ordered) :
    Separates a a.letter Regex.MatchesChar := by
  intro r ranges hr hranges c
  rw [← Regex.covered_charRanges hr, ha.covered_iff_letters hranges]
  rfl

theorem mem_allLeafRanges {rs : List Regex} {r : Regex} (hr : r ∈ rs) {range : CodeRange}
    (hrange : range ∈ r.leafRanges) : range ∈ Regex.allLeafRanges rs := by
  induction rs with
  | nil => exact absurd hr List.not_mem_nil
  | cons r' rs ih =>
    rw [Regex.allLeafRanges, List.mem_append]
    rcases List.mem_cons.1 hr with rfl | hr
    · exact Or.inl hrange
    · exact Or.inr (ih hr)

theorem builds_pattern {p : Pattern} (hp : p ∈ ps) :
    Builds (alphabetOf ps).size (alphabetOf ps).letter p.regex.lang
      (Fragment.add (alphabetOf ps) p.regex) := by
  have hordered := Alphabet.ordered_ofRegexes (ps.map Pattern.regex)
  have hbounds : AtBounds (alphabetOf ps) p.regex.leafRanges := fun range hrange =>
    Alphabet.mem_bounds_ofRegexes (mem_allLeafRanges (List.mem_map_of_mem hp) hrange)
  rw [Regex.lang, ← langOver_matchesLetter (separates_letter hordered) hbounds]
  exact builds_add (Nat.le_refl _) p.regex

theorem combined_foldl {a : Alphabet} {done : List Pattern} (h : Combined a.size letter done m)
    (rest : List Pattern)
    (hrest : ∀ p ∈ rest, Builds a.size letter p.regex.lang (Fragment.add a p.regex)) :
    Combined a.size letter (done ++ rest) (rest.foldl (Lexer.addPattern a) m) := by
  induction rest generalizing done m with
  | nil => rwa [List.append_nil]
  | cons p rest ih =>
    obtain ⟨hp, hrest⟩ := List.forall_mem_cons.1 hrest
    have := ih (h.addPattern hp) hrest
    rwa [List.append_assoc] at this

/-- The automaton of the patterns has one exit for each of them. -/
theorem combined_combine (ps : List Pattern) :
    Combined (alphabetOf ps).size (alphabetOf ps).letter ps (combine (alphabetOf ps) ps) :=
  combined_foldl (combined_single _ _) ps fun _ hp => builds_pattern hp

/-! ### What is accepted -/

theorem Combined.acceptOf_eq_some_iff (h : Combined letters letter ps m) {x : Nat} {b : Accept} :
    m.acceptOf x = some b ↔ (x, b) ∈ m.accepts := by
  rw [acceptOf, Option.map_eq_some_iff]
  constructor
  · rintro ⟨⟨x', b⟩, hfind, rfl⟩
    have heq := List.find?_some hfind
    obtain rfl : x' = x := beq_iff_eq.1 heq
    exact List.mem_of_find?_eq_some hfind
  · intro hmem
    have hsome : (m.accepts.find? fun acc => acc.1 == x).isSome :=
      List.find?_isSome.2 ⟨_, hmem, beq_self_eq_true x⟩
    obtain ⟨⟨x', b'⟩, hfind⟩ := Option.isSome_iff_exists.1 hsome
    have heq := List.find?_some hfind
    obtain rfl : x' = x := beq_iff_eq.1 heq
    have hnodup : (m.accepts.map Prod.fst).Nodup :=
      (List.pairwise_map.2 h.ascending).imp Nat.ne_of_lt
    have := List.inj_on_of_nodup_map hnodup (List.mem_of_find?_eq_some hfind) hmem rfl
    exact ⟨_, hfind, (Prod.mk.inj this).2⟩

/-- A pattern matches the text exactly if its exit is among the states after the text. -/
theorem Combined.exists_exit (h : Combined letters letter ps m) {i : Nat} {p : Pattern}
    (hp : ps[i]? = some p) : ∃ x, m.accepts[i]? = some (x, ⟨p.priority, p.terminal⟩) ∧
      ∀ w : List Char, x ∈ m.setAfter (w.map letter) ↔ w ∈ p.regex.lang := by
  obtain ⟨hlt, -⟩ := List.getElem?_eq_some_iff.1 hp
  have hget := List.getElem?_eq_getElem (Nat.lt_of_lt_of_eq hlt h.length.symm)
  obtain ⟨hsnd, hreads⟩ := h.exits hget hp
  refine ⟨_, hget.trans (congrArg some (Prod.ext rfl hsnd)), fun w => ?_⟩
  rw [mem_setAfter h.bounded h.pos, hreads]

theorem Combined.exists_pattern (h : Combined letters letter ps m) {x : Nat} {b : Accept}
    (hx : m.acceptOf x = some b) : ∃ (i : Nat) (p : Pattern), ps[i]? = some p ∧
      m.accepts[i]? = some (x, b) ∧ b = ⟨p.priority, p.terminal⟩ ∧
      ∀ w : List Char, x ∈ m.setAfter (w.map letter) ↔ w ∈ p.regex.lang := by
  obtain ⟨i, hi, hget⟩ := List.getElem_of_mem (h.acceptOf_eq_some_iff.1 hx)
  have hp := List.getElem?_eq_getElem (Nat.lt_of_lt_of_eq hi h.length)
  obtain ⟨x', hx', hlang⟩ := h.exists_exit hp
  have hget' : m.accepts[i]? = some (x, b) := List.getElem?_eq_some_iff.2 ⟨hi, hget⟩
  obtain ⟨rfl, hb⟩ := Prod.mk.inj (Option.some.inj (hget'.symm.trans hx'))
  exact ⟨i, _, hp, hget', hb, hlang⟩

/-- After a text that no pattern matches, nothing is accepted. -/
theorem Combined.not_mem_lang (h : Combined letters letter ps m) {w : List Char}
    (hw : m.bestAccept (m.setAfter (w.map letter)) = none) : ∀ p ∈ ps, w ∉ p.regex.lang := by
  intro p hp hmem
  obtain ⟨i, hp⟩ := List.mem_iff_getElem?.1 hp
  obtain ⟨x, hx, hlang⟩ := h.exists_exit hp
  have hnone := acceptOf_of_bestAccept_none hw x ((hlang w).2 hmem)
  rw [h.acceptOf_eq_some_iff.2 (List.mem_of_getElem? hx)] at hnone
  exact absurd hnone (by simp)

/-- After any other text, the terminal to which it is attributed. -/
theorem Combined.attributed (h : Combined letters letter ps m) {w : List Char} {b : Accept}
    (hw : m.bestAccept (m.setAfter (w.map letter)) = some b) : Attributed ps w b.terminal := by
  obtain ⟨x, hx, hb, hbest⟩ := wins_of_bestAccept hw
  obtain ⟨i, p, hp, hi, rfl, hlang⟩ := h.exists_pattern hb
  refine ⟨i, p, hp, rfl, (hlang w).1 (IdSet.mem_toList.1 hx), ?_⟩
  intro j q hq hmem
  obtain ⟨y, hj, hlang'⟩ := h.exists_exit hq
  have hy := IdSet.mem_toList.2 ((hlang' w).2 hmem)
  obtain ⟨hle, hfirst⟩ := hbest y hy _ (h.acceptOf_eq_some_iff.2 (List.mem_of_getElem? hj))
  refine ⟨hle, fun hji => hfirst ?_⟩
  obtain ⟨hj', hgetj⟩ := List.getElem?_eq_some_iff.1 hj
  obtain ⟨hi', hgeti⟩ := List.getElem?_eq_some_iff.1 hi
  have := List.pairwise_iff_getElem.1 h.ascending j i hj' hi' hji
  rwa [hgetj, hgeti] at this

end Lexer

end ShiftReduce
