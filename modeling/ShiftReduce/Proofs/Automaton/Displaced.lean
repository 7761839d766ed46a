import ShiftReduce.Automaton.Displaced
import ShiftReduce.Proofs.Automaton.Dfa

/-!
# Displaced rows lose nothing

Laying a row over the rows before it changes none of them, since it takes free slots only, and a slot
is read back only by its owner. So a table moves and accepts as the automaton that it was made from
does (`next_ofDfa`, `accept_ofDfa`).
-/

namespace ShiftReduce

namespace Displaced

variable {t : Displaced} {slots : Array (Option (Nat × Nat))} {moves : List (Nat × Nat)}

/-! ### Slots -/

theorem getElem?_ne_of_not_inUse {i : Nat} (h : inUse slots i = false) (move : Nat × Nat) :
    slots[i]? ≠ some (some move) := by
  intro hi
  rw [inUse, hi] at h
  exact absurd h (by simp)

theorem fits_of_size_le {base : Nat} (h : slots.size ≤ base) (moves : List (Nat × Nat)) :
    fits slots moves base = true := by
  rw [fits, List.all_eq_true]
  intro move _
  rw [inUse, Array.getElem?_eq_none (by omega)]
  rfl

theorem fits_findBaseFrom {n base : Nat} (h : slots.size ≤ base + n) :
    fits slots moves (findBaseFrom slots moves n base) = true := by
  induction n generalizing base with
  | zero => exact fits_of_size_le h moves
  | succ n ih =>
    rw [findBaseFrom]
    split
    · next hfits => exact hfits
    · exact ih (by omega)

theorem fits_findBase (slots : Array (Option (Nat × Nat))) (moves : List (Nat × Nat)) :
    fits slots moves (findBase slots moves) = true :=
  fits_findBaseFrom (Nat.le_of_eq (Nat.zero_add _).symm)

theorem le_size_extend (slots : Array (Option (Nat × Nat))) (n : Nat) :
    n ≤ (extend slots n).size := by
  rw [extend, Array.size_append, Array.size_replicate]
  omega

/-- New slots are free. -/
theorem getElem?_extend_eq_some_iff {n i : Nat} {move : Nat × Nat} :
    (extend slots n)[i]? = some (some move) ↔ slots[i]? = some (some move) := by
  rw [extend, Array.getElem?_append]
  split
  · exact Iff.rfl
  · next hge =>
    rw [Array.getElem?_eq_none (Nat.le_of_not_lt hge), Array.getElem?_replicate]
    split <;> simp

/-- The slots of a row are those of its moves, and no other slot changes. -/
theorem getElem?_place {base owner : Nat} (hmoves : (moves.map Prod.fst).Pairwise (· < ·))
    (hlt : ∀ move ∈ moves, base + move.1 < slots.size) {i : Nat} {x : Option (Nat × Nat)} :
    (moves.foldl (fun slots move => slots.setIfInBounds (base + move.1) (some (owner, move.2)))
      slots)[i]? = some x ↔
      (∃ move ∈ moves, i = base + move.1 ∧ x = some (owner, move.2)) ∨
        (∀ move ∈ moves, i ≠ base + move.1) ∧ slots[i]? = some x := by
  induction moves generalizing slots with
  | nil => simp
  | cons move moves ih =>
    obtain ⟨hfirst, hrest⟩ := List.pairwise_cons.1 hmoves
    have hbound := hlt move List.mem_cons_self
    rw [List.foldl_cons, ih hrest ?_, List.exists_mem_cons_iff, List.forall_mem_cons,
      Array.getElem?_setIfInBounds]
    · by_cases hi : base + move.1 = i
      · -- the first move has a slot of its own
        have hother : ∀ move' ∈ moves, i ≠ base + move'.1 := by
          intro move' hmove'
          have := hfirst move'.1 (List.mem_map_of_mem hmove')
          omega
        rw [if_pos hi, if_pos hbound, Option.some.injEq]
        constructor
        · rintro (⟨move', hmove', heq, -⟩ | ⟨-, rfl⟩)
          · exact absurd heq (hother move' hmove')
          · exact Or.inl (Or.inl ⟨hi.symm, rfl⟩)
        · rintro ((⟨-, rfl⟩ | ⟨move', hmove', heq, -⟩) | ⟨⟨hne, -⟩, -⟩)
          · exact Or.inr ⟨hother, rfl⟩
          · exact absurd heq (hother move' hmove')
          · exact absurd hi.symm hne
      · rw [if_neg hi]
        constructor
        · rintro (h | ⟨hne, hget⟩)
          · exact Or.inl (Or.inr h)
          · exact Or.inr ⟨⟨fun heq => hi heq.symm, hne⟩, hget⟩
        · rintro ((⟨heq, -⟩ | h) | ⟨⟨-, hne⟩, hget⟩)
          · exact absurd heq.symm hi
          · exact Or.inl h
          · exact Or.inr ⟨hne, hget⟩
    · intro move' hmove'
      rw [Array.size_setIfInBounds]
      exact hlt move' (List.mem_cons_of_mem _ hmove')

/-! ### Rows -/

/-- The table holds the given rows: each slot in use has one of them as its owner, and the slots of a
row from its base on are those of its moves. -/
structure Holds (t : Displaced) (rows : List DfaRow) : Prop where
  size : t.bases.size = rows.length
  accepts : t.accepts.toList = rows.map DfaRow.accept
  owner_lt : ∀ {i p j : Nat}, t.slots[i]? = some (some (p, j)) → p < rows.length
  moves : ∀ {p : Nat} {row}, rows[p]? = some row → ∀ a j : Nat,
    t.slots[t.bases[p]?.getD 0 + a]? = some (some (p, j)) ↔ (a, j) ∈ row.moves

theorem holds_empty (letters : Nat) : Holds (empty letters) [] where
  size := rfl
  accepts := rfl
  owner_lt h := by simp [empty] at h
  moves h := by simp at h

/-- One more row takes the slots of its moves and no other. -/
theorem getElem?_addRow {row : DfaRow} (hsorted : (row.moves.map Prod.fst).Pairwise (· < ·))
    (hlt : ∀ {a j}, (a, j) ∈ row.moves → a < t.letters) {i p j : Nat} :
    (t.addRow row).slots[i]? = some (some (p, j)) ↔
      (∃ move ∈ row.moves, i = findBase t.slots row.moves + move.1 ∧ p = t.bases.size ∧
        j = move.2) ∨ t.slots[i]? = some (some (p, j)) := by
  -- the moves of the new row meet no slot in use
  have hfree : ∀ move ∈ row.moves, ∀ x,
      t.slots[findBase t.slots row.moves + move.1]? ≠ some (some x) := by
    intro move hmove
    have := List.all_eq_true.1 (fits_findBase t.slots row.moves) move hmove
    exact getElem?_ne_of_not_inUse (by simpa using this)
  rw [addRow, getElem?_place hsorted ?_, getElem?_extend_eq_some_iff]
  · simp only [Option.some.injEq, Prod.mk.injEq]
    refine or_congr_right (and_iff_right_of_imp ?_)
    intro hget move hmove heq
    rw [heq] at hget
    exact hfree move hmove _ hget
  · intro move hmove
    refine Nat.lt_of_lt_of_le ?_ (le_size_extend _ _)
    have := hlt (a := move.1) (j := move.2) hmove
    omega

theorem Holds.addRow {rows : List DfaRow} (h : Holds t rows) {row : DfaRow}
    (hsorted : (row.moves.map Prod.fst).Pairwise (· < ·))
    (hlt : ∀ {a j}, (a, j) ∈ row.moves → a < t.letters) : Holds (t.addRow row) (rows ++ [row]) := by
  have hslots : ∀ {i p j : Nat}, (t.addRow row).slots[i]? = some (some (p, j)) ↔
      (∃ move ∈ row.moves, i = findBase t.slots row.moves + move.1 ∧ p = rows.length ∧
        j = move.2) ∨ t.slots[i]? = some (some (p, j)) := by
    intro i p j
    rw [getElem?_addRow hsorted hlt, h.size]
  refine { size := ?_, accepts := ?_, owner_lt := ?_, moves := ?_ }
  · simp [Displaced.addRow, h.size]
  · simp [Displaced.addRow, h.accepts]
  · intro i p j hget
    rw [List.length_append, List.length_singleton]
    rcases hslots.1 hget with ⟨-, -, -, rfl, -⟩ | hget
    · exact Nat.lt_succ_self _
    · exact Nat.lt_succ_of_lt (h.owner_lt hget)
  · intro p row' hrow' a j
    rw [hslots]
    have hbases : (t.addRow row).bases = t.bases.push (findBase t.slots row.moves) := rfl
    rw [hbases, Array.getElem?_push, h.size]
    by_cases hp : p = rows.length
    · -- the new row has the slots of its moves
      rw [hp, List.getElem?_concat_length, Option.some.injEq] at hrow'
      rw [if_pos hp, Option.getD_some, ← hrow']
      constructor
      · rintro (⟨move, hmove, heq, -, rfl⟩ | hget)
        · obtain rfl : a = move.1 := by omega
          exact hmove
        · exact absurd (h.owner_lt hget) (by omega)
      · intro hmove
        exact Or.inl ⟨_, hmove, rfl, hp, rfl⟩
    · -- the others keep theirs
      have hlt' : p < rows.length := by
        obtain ⟨hlt', -⟩ := List.getElem?_eq_some_iff.1 hrow'
        rw [List.length_append, List.length_singleton] at hlt'
        omega
      rw [List.getElem?_append_left hlt'] at hrow'
      rw [if_neg hp, ← h.moves hrow']
      refine or_iff_right ?_
      rintro ⟨-, -, -, heq, -⟩
      exact hp heq

theorem Holds.foldl_addRow {letters : Nat} {rows : List DfaRow} (h : Holds t rows)
    (hletters : t.letters = letters) (rest : List DfaRow)
    (hrest : ∀ row ∈ rest, (row.moves.map Prod.fst).Pairwise (· < ·) ∧
      ∀ {a j}, (a, j) ∈ row.moves → a < letters) :
    Holds (rest.foldl Displaced.addRow t) (rows ++ rest) ∧
      (rest.foldl Displaced.addRow t).letters = letters := by
  induction rest generalizing t rows with
  | nil =>
    rw [List.append_nil]
    exact ⟨h, hletters⟩
  | cons row rest ih =>
    obtain ⟨⟨hsorted, hlt⟩, hrest⟩ := List.forall_mem_cons.1 hrest
    have hstep := ih (h.addRow hsorted (by rw [hletters]; exact hlt)) hletters hrest
    rwa [List.append_assoc] at hstep

theorem holds_ofDfa {d : Dfa} {letters : Nat} (h : d.Sorted letters) :
    Holds (ofDfa d letters) d.rows.toList ∧ (ofDfa d letters).letters = letters := by
  rw [ofDfa, ← Array.foldl_toList]
  exact (holds_empty letters).foldl_addRow rfl d.rows.toList h

/-- The table moves as the automaton. -/
theorem next_ofDfa {d : Dfa} {letters : Nat} (h : d.Sorted letters) (p a : Nat) :
    (ofDfa d letters).next p a = d.next p a := by
  obtain ⟨hholds, hletters⟩ := holds_ofDfa h
  refine Option.ext fun j => ?_
  have hnext : (ofDfa d letters).next p a = some j ↔ a < letters ∧
      (ofDfa d letters).slots[(ofDfa d letters).bases[p]?.getD 0 + a]? = some (some (p, j)) := by
    rw [Displaced.next, hletters]
    split
    · next hle => simp [Nat.not_lt_of_le hle]
    · next hgt =>
      rw [and_iff_right (Nat.lt_of_not_le hgt)]
      split
      · next owner target hget =>
        rw [hget]
        split
        · next heq => simp [heq]
        · next hne => simp [hne]
      · next hget =>
        simp only [reduceCtorEq, false_iff]
        exact hget p j
  rw [hnext, Dfa.next_eq_some_iff h]
  constructor
  · rintro ⟨-, hget⟩
    have hlt := hholds.owner_lt hget
    have hrow : d.rows[p]? = some d.rows[p] := Array.getElem?_eq_getElem hlt
    exact ⟨_, hrow, (hholds.moves (by rw [Array.getElem?_toList]; exact hrow) a j).1 hget⟩
  · rintro ⟨row, hrow, hmove⟩
    have hmem : row ∈ d.rows.toList := Array.mem_toList_iff.2 (Array.mem_of_getElem? hrow)
    exact ⟨(h row hmem).2 hmove,
      (hholds.moves (by rw [Array.getElem?_toList]; exact hrow) a j).2 hmove⟩

/-- The table accepts as the automaton. -/
theorem accept_ofDfa {d : Dfa} {letters : Nat} (h : d.Sorted letters) (p : Nat) :
    (ofDfa d letters).accept p = d.accept p := by
  obtain ⟨hholds, -⟩ := holds_ofDfa h
  rw [accept, ← Array.getElem?_toList, hholds.accepts, List.getElem?_map, Array.getElem?_toList,
    Dfa.accept]
  cases d.rows[p]? with
  | none => rfl
  | some row => rfl

/-- The table accepts after a text what the automaton run on sets of states does. -/
theorem acceptsAfter_ofDfa {m : Nfa} {letters : Nat} (hm : m.Bounded letters) (hpos : 0 < m.size)
    (letter : Char → Nat) (cs : List Char) :
    (ofDfa (Dfa.ofNfa m) letters).recognizer.acceptsAfter letter 0 cs =
      m.recognizer.acceptsAfter letter m.startSet cs := by
  obtain ⟨sets, hnum, hsize, hrows⟩ := Dfa.ofNfa_spec hm hpos
  generalize Dfa.ofNfa m = d at hsize hrows ⊢
  have hsorted := hrows.sorted
  refine Recognizer.acceptsAfter_of_simulation (R := fun p s => sets[p]? = some s) ?_ ?_ hnum.first
    cs
  · intro p s hp
    exact (accept_ofDfa hsorted p).trans (hrows.next hsize hp 0).2
  · intro p s hp c
    have hstep := (hrows.next hsize hp (letter c)).1
    rwa [← next_ofDfa hsorted] at hstep

end Displaced

end ShiftReduce
