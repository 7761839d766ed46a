import ShiftReduce.Automaton.Dfa
import ShiftReduce.Proofs.Automaton.Nfa

/-!
# The subset construction numbers the sets

While the subset construction goes on, the sets of states found so far keep their numbers and are
all different, so that there are never more than `2 ^ m.size` of them. Each row tells for every
letter the number of the set that the letter leads to (`RowFor`). At the end every set that has a
number has a row (`ofNfa_spec`), and the deterministic automaton moves from number to number as the
other one does from set to set (`RowsFor.next`).
-/

namespace ShiftReduce

namespace Dfa

variable {m : Nfa} {letters : Nat} {sets sets' : Array IdSet} {s : IdSet}

/-- What has a number keeps it. -/
def Keeps (sets sets' : Array IdSet) : Prop := ∀ {i : Nat} {s}, sets[i]? = some s → sets'[i]? = some s

theorem Keeps.refl (sets : Array IdSet) : Keeps sets sets := fun h => h

theorem Keeps.trans {sets'' : Array IdSet} (h : Keeps sets sets') (h' : Keeps sets' sets'') :
    Keeps sets sets'' := fun hi => h' (h hi)

theorem keeps_push (sets : Array IdSet) (s : IdSet) : Keeps sets (sets.push s) := by
  intro i t hi
  obtain ⟨hlt, -⟩ := Array.getElem?_eq_some_iff.1 hi
  rw [Array.getElem?_push, if_neg (Nat.ne_of_lt hlt)]
  exact hi

/-- Different sets of states of the automaton are numbered, beginning with the one before anything
is read. -/
structure Numbering (m : Nfa) (sets : Array IdSet) : Prop where
  nodup : sets.toList.Nodup
  below : ∀ s ∈ sets.toList, s.Below m.size
  first : sets[0]? = some m.startSet

theorem Numbering.size_le (h : Numbering m sets) : sets.size ≤ 2 ^ m.size :=
  IdSet.length_le_of_nodup_of_below h.nodup h.below

theorem intern_spec (h : Numbering m sets) (hs : s.Below m.size) :
    Numbering m (intern sets s).1 ∧ Keeps sets (intern sets s).1 ∧
      (intern sets s).1[(intern sets s).2]? = some s := by
  rw [intern]
  split
  · next i hi =>
    obtain ⟨sets⟩ := sets
    rw [List.idxOf?_toArray, List.idxOf?_eq_some_iff] at hi
    obtain ⟨hlt, hget, -⟩ := hi
    exact ⟨h, Keeps.refl _, Array.getElem?_eq_some_iff.2 ⟨hlt, hget⟩⟩
  · next hnone =>
    rw [Array.idxOf?_eq_none_iff] at hnone
    refine ⟨?_, keeps_push sets s, ?_⟩
    · refine { nodup := ?_, below := ?_, first := keeps_push sets s h.first }
      · rw [Array.toList_push]
        refine List.nodup_append.2 ⟨h.nodup, List.nodup_singleton s, ?_⟩
        intro t ht t' ht' heq
        rw [heq, List.mem_singleton.1 ht'] at ht
        exact hnone (Array.mem_toList_iff.1 ht)
      · intro t ht
        rw [Array.toList_push, List.mem_append, List.mem_singleton] at ht
        rcases ht with ht | rfl
        · exact h.below t ht
        · exact hs
    · rw [Array.getElem?_push, if_pos rfl]

/-- The row tells what the set `s` accepts and which sets its letters lead to. -/
structure RowFor (m : Nfa) (letters : Nat) (sets : Array IdSet) (s : IdSet) (row : DfaRow) :
    Prop where
  accept : row.accept = (m.bestAccept s).map Accept.terminal
  sound : ∀ {a i}, (a, i) ∈ row.moves → m.step s a ≠ ∅ ∧ sets[i]? = some (m.step s a)
  complete : ∀ {a}, m.step s a ≠ ∅ → ∃ i, (a, i) ∈ row.moves
  ascending : (row.moves.map Prod.fst).Pairwise (· < ·)
  letter_lt : ∀ {a i}, (a, i) ∈ row.moves → a < letters

theorem RowFor.keeps {row : DfaRow} (h : RowFor m letters sets s row) (hkeeps : Keeps sets sets') :
    RowFor m letters sets' s row where
  accept := h.accept
  sound hmove := ⟨(h.sound hmove).1, hkeeps (h.sound hmove).2⟩
  complete := h.complete
  ascending := h.ascending
  letter_lt := h.letter_lt

/-- The moves that are found: one for each letter that leads somewhere. -/
theorem foldl_addMove (hm : m.Bounded letters) (s : IdSet) (as : List Nat)
    (found : Array IdSet × List (Nat × Nat)) (h : Numbering m found.1) :
    Numbering m (as.foldl (addMove m s) found).1 ∧
    Keeps found.1 (as.foldl (addMove m s) found).1 ∧
    ∃ added, (as.foldl (addMove m s) found).2 = found.2 ++ added ∧
      added.map Prod.fst = as.filter (fun a => m.step s a ≠ ∅) ∧
      ∀ move ∈ added, (as.foldl (addMove m s) found).1[move.2]? = some (m.step s move.1) := by
  induction as generalizing found with
  | nil => exact ⟨h, Keeps.refl _, [], (List.append_nil _).symm, rfl, fun _ hmove => by simp at hmove⟩
  | cons a as ih =>
    rw [List.foldl_cons]
    by_cases hempty : m.step s a = ∅
    · have hstep : addMove m s found a = found := if_pos hempty
      rw [hstep, List.filter_cons_of_neg (by simp [hempty])]
      exact ih found h
    · obtain ⟨hnum, hkeeps, hget⟩ := intern_spec h (Nfa.below_step hm s a)
      have hstep : addMove m s found a = ((intern found.1 (m.step s a)).1,
          found.2 ++ [(a, (intern found.1 (m.step s a)).2)]) := if_neg hempty
      rw [hstep, List.filter_cons_of_pos (by simp [hempty])]
      obtain ⟨hnum', hkeeps', added, hadded, hfst, hmoves⟩ := ih
        ((intern found.1 (m.step s a)).1, found.2 ++ [(a, (intern found.1 (m.step s a)).2)]) hnum
      refine ⟨hnum', hkeeps.trans hkeeps', (a, (intern found.1 (m.step s a)).2) :: added, ?_, ?_, ?_⟩
      · rw [hadded, List.append_assoc]
        rfl
      · rw [List.map_cons, hfst]
      · intro move hmove
        rcases List.mem_cons.1 hmove with rfl | hmove
        · exact hkeeps' hget
        · exact hmoves move hmove

theorem mem_lettersOf {a : Nat} : a ∈ lettersOf m s ↔ ∃ p ∈ s, ∃ q, m.HasEdge p (some a) q := by
  simp only [lettersOf, IdSet.mem_toList, IdSet.mem_ofList, List.mem_flatMap, Nfa.mem_letters]

/-- A letter that no edge reads leads nowhere. -/
theorem mem_lettersOf_of_step_ne (hm : m.Bounded letters) {a : Nat} (h : m.step s a ≠ ∅) :
    a ∈ lettersOf m s := by
  rw [mem_lettersOf]
  by_contra hnone
  refine h (IdSet.ext fun i => ⟨?_, fun hi => absurd hi (IdSet.not_mem_empty i)⟩)
  intro hi
  obtain ⟨p, hp, q, hedge, -⟩ := (Nfa.mem_step hm).1 hi
  exact absurd ⟨p, hp, q, hedge⟩ hnone

theorem rowOf_spec (hm : m.Bounded letters) (h : Numbering m sets) (s : IdSet) :
    Numbering m (rowOf m sets s).1 ∧ Keeps sets (rowOf m sets s).1 ∧
      RowFor m letters (rowOf m sets s).1 s (rowOf m sets s).2 := by
  obtain ⟨hnum, hkeeps, added, hadded, hfst, hmoves⟩ :=
    foldl_addMove hm s (lettersOf m s) (sets, []) h
  rw [List.nil_append] at hadded
  have hrow : rowOf m sets s = (((lettersOf m s).foldl (addMove m s) (sets, [])).1,
      ⟨added, (m.bestAccept s).map Accept.terminal⟩) := by
    rw [← hadded]
    rfl
  rw [hrow]
  have hletter : ∀ {a i}, (a, i) ∈ added → a ∈ lettersOf m s ∧ m.step s a ≠ ∅ := by
    intro a i hmove
    have ha := List.mem_map_of_mem (f := Prod.fst) hmove
    rw [hfst, List.mem_filter, decide_eq_true_eq] at ha
    exact ha
  refine ⟨hnum, hkeeps, ?_⟩
  refine { accept := rfl, sound := ?_, complete := ?_, ascending := ?_, letter_lt := ?_ }
  · intro a i hmove
    exact ⟨(hletter hmove).2, hmoves _ hmove⟩
  · intro a ha
    have hmem : a ∈ added.map Prod.fst := by
      rw [hfst, List.mem_filter, decide_eq_true_eq]
      exact ⟨mem_lettersOf_of_step_ne hm ha, ha⟩
    obtain ⟨⟨_, i⟩, hmove, rfl⟩ := List.mem_map.1 hmem
    exact ⟨i, hmove⟩
  · rw [hfst]
    exact (IdSet.pairwise_toList _).filter _
  · intro a i hmove
    obtain ⟨p, -, q, hedge⟩ := mem_lettersOf.1 (hletter hmove).1
    exact hm.letter_lt hedge

/-- The rows made so far are those of the first sets. -/
def RowsFor (m : Nfa) (letters : Nat) (sets : Array IdSet) (rows : Array DfaRow) : Prop :=
  ∀ {i : Nat} {row}, rows[i]? = some row → ∃ s, sets[i]? = some s ∧ RowFor m letters sets s row

theorem explore_spec (hm : m.Bounded letters) {fuel : Nat} {rows : Array DfaRow}
    (h : Numbering m sets) (hle : rows.size ≤ sets.size) (hrows : RowsFor m letters sets rows)
    (hfuel : 2 ^ m.size < fuel + rows.size) :
    Numbering m (explore m fuel sets rows).1 ∧
      (explore m fuel sets rows).2.size = (explore m fuel sets rows).1.size ∧
      RowsFor m letters (explore m fuel sets rows).1 (explore m fuel sets rows).2 := by
  induction fuel generalizing sets rows with
  | zero =>
    have := h.size_le
    omega
  | succ fuel ih =>
    cases hs : sets[rows.size]? with
    | none =>
      have hexplore : explore m (fuel + 1) sets rows = (sets, rows) := by simp only [explore, hs]
      rw [Array.getElem?_eq_none_iff] at hs
      rw [hexplore]
      exact ⟨h, Nat.le_antisymm hle hs, hrows⟩
    | some s =>
      have hexplore : explore m (fuel + 1) sets rows =
          explore m fuel (rowOf m sets s).1 (rows.push (rowOf m sets s).2) := by
        simp only [explore, hs]
      rw [hexplore]
      obtain ⟨hlt, -⟩ := Array.getElem?_eq_some_iff.1 hs
      obtain ⟨hnum, hkeeps, hrow⟩ := rowOf_spec hm h s
      have hgrown : sets.size ≤ (rowOf m sets s).1.size := by
        by_contra hshort
        have hlast := hkeeps (Array.getElem?_eq_getElem (Nat.lt_of_not_le hshort))
        rw [Array.getElem?_eq_none (Nat.le_refl _)] at hlast
        exact absurd hlast (by simp)
      refine ih hnum ?_ ?_ ?_
      · rw [Array.size_push]
        omega
      · intro i row hi
        rw [Array.getElem?_push] at hi
        split at hi
        · next heq =>
          rw [heq, ← Option.some.inj hi]
          exact ⟨s, hkeeps hs, hrow⟩
        · obtain ⟨t, ht, hrow'⟩ := hrows hi
          exact ⟨t, hkeeps ht, hrow'.keeps hkeeps⟩
      · rw [Array.size_push]
        omega

/-- Every set that has a number has a row. -/
theorem ofNfa_spec (hm : m.Bounded letters) (hpos : 0 < m.size) :
    ∃ sets, Numbering m sets ∧ (ofNfa m).size = sets.size ∧
      RowsFor m letters sets (ofNfa m).rows := by
  have hfirst : Numbering m #[m.startSet] :=
    { nodup := List.nodup_singleton _
      below := fun s hs => by
        rw [List.mem_singleton.1 hs]
        exact Nfa.below_startSet hm hpos
      first := rfl }
  have hnone : RowsFor m letters #[m.startSet] #[] := fun hi => by simp at hi
  have hfuel : 2 ^ m.size < 1 <<< m.size + 1 := by
    rw [Nat.one_shiftLeft]
    exact Nat.lt_succ_self _
  obtain ⟨hnum, hsize, hrows⟩ := explore_spec hm hfirst (Nat.zero_le _) hnone hfuel
  exact ⟨_, hnum, hsize, hrows⟩

/-! ### Moves -/

/-- The moves of each state are in ascending order of their letters, which are below `letters`. -/
def Sorted (letters : Nat) (d : Dfa) : Prop :=
  ∀ row ∈ d.rows.toList, (row.moves.map Prod.fst).Pairwise (· < ·) ∧
    ∀ {a i}, (a, i) ∈ row.moves → a < letters

theorem RowsFor.sorted {d : Dfa} (h : RowsFor m letters sets d.rows) : d.Sorted letters := by
  intro row hrow
  obtain ⟨i, hi, rfl⟩ := List.getElem_of_mem hrow
  obtain ⟨s, -, hs⟩ := h (Array.getElem?_eq_getElem hi)
  exact ⟨hs.ascending, hs.letter_lt⟩

/-- There is one move for each letter. -/
theorem eq_of_mem_moves {moves : List (Nat × Nat)} (h : (moves.map Prod.fst).Pairwise (· < ·))
    {a i j : Nat} (hi : (a, i) ∈ moves) (hj : (a, j) ∈ moves) : i = j := by
  have hnodup : (moves.map Prod.fst).Nodup := h.imp Nat.ne_of_lt
  have heq := List.inj_on_of_nodup_map hnodup hi hj rfl
  exact (Prod.mk.inj heq).2

theorem next_eq_some_iff {d : Dfa} (h : d.Sorted letters) {p a j : Nat} :
    d.next p a = some j ↔ ∃ row, d.rows[p]? = some row ∧ (a, j) ∈ row.moves := by
  rw [next, Option.map_eq_some_iff]
  constructor
  · rintro ⟨⟨a', j⟩, hfind, rfl⟩
    obtain ⟨row, hrow, hfind⟩ := Option.bind_eq_some_iff.1 hfind
    have heq := List.find?_some hfind
    obtain rfl : a' = a := beq_iff_eq.1 heq
    exact ⟨row, hrow, List.mem_of_find?_eq_some hfind⟩
  · rintro ⟨row, hrow, hmove⟩
    have hfound : (row.moves.find? fun move => move.1 == a).isSome :=
      List.find?_isSome.2 ⟨_, hmove, beq_self_eq_true a⟩
    obtain ⟨⟨a', j'⟩, hfind⟩ := Option.isSome_iff_exists.1 hfound
    have heq := List.find?_some hfind
    obtain rfl : a' = a := beq_iff_eq.1 heq
    refine ⟨_, by rw [hrow]; exact hfind, ?_⟩
    have hrows : row ∈ d.rows.toList := Array.mem_toList_iff.2 (Array.mem_of_getElem? hrow)
    exact eq_of_mem_moves (h row hrows).1 (List.mem_of_find?_eq_some hfind) hmove

/-- The automaton moves from number to number as the other one does from set to set. -/
theorem RowsFor.next {d : Dfa} (h : RowsFor m letters sets d.rows) (hsize : d.size = sets.size)
    {p : Nat} (hp : sets[p]? = some s) (a : Nat) :
    Option.Rel (fun j t => sets[j]? = some t) (d.next p a) (m.recognizer.next s a) ∧
      d.accept p = m.recognizer.accept s := by
  obtain ⟨hlt, -⟩ := Array.getElem?_eq_some_iff.1 hp
  have hget := Array.getElem?_eq_getElem (Nat.lt_of_lt_of_eq hlt hsize.symm)
  obtain ⟨s', hs', hrow⟩ := h hget
  obtain rfl : s = s' := Option.some.inj (hp.symm.trans hs')
  constructor
  · by_cases hempty : m.step s a = ∅
    · have hnext : d.next p a = none := by
        refine Option.eq_none_iff_forall_ne_some.2 fun j hj => ?_
        obtain ⟨row, hrow', hmove⟩ := (next_eq_some_iff h.sorted).1 hj
        rw [hget, Option.some.injEq] at hrow'
        rw [← hrow'] at hmove
        exact (hrow.sound hmove).1 hempty
      have hnone : m.recognizer.next s a = none := if_pos hempty
      rw [hnext, hnone]
      exact .none
    · obtain ⟨j, hmove⟩ := hrow.complete hempty
      have hsome : m.recognizer.next s a = some (m.step s a) := if_neg hempty
      rw [(next_eq_some_iff h.sorted).2 ⟨_, hget, hmove⟩, hsome]
      exact .some (hrow.sound hmove).2
  · rw [accept, hget]
    exact hrow.accept

end Dfa

end ShiftReduce
