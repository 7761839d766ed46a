import Mathlib.Computability.StateTransition
import ShiftReduce.Proofs.Automaton.Displaced
import ShiftReduce.Proofs.Automaton.TransitionMap

/-!
# Laying out a map of transitions

`TransitionMap.displace` lays out the rows of a map of transitions with nothing taken for granted: an
access has no result if the index leaves the array, and the search for a base goes on for as long as no
base is found. The search ends, at the latest behind the last slot (`searchBase_eq_some`), and no access
leaves its array, so the result is the table of the automaton that the map stands for
(`displace_eq_some`).

A table can be kept in arrays of numbers, one for the owners of the slots and one for the targets, in
which `noState` stands for a free slot. A slot in use lies in the row of its owner (`Owned`), so it
belongs to one move of one state. Looking a move up in the arrays of numbers gives what the map says,
since no state has the number that stands for a free slot (`next?_eq_some`). The main statement is
`TransitionMap.displaced_lossless`.
-/

namespace ShiftReduce

/-- What stands for a state where there is none: the largest number of 32 bits. -/
def noState : Nat := 0xffffffff

/-- Changes the entry with the index `i`. There is no result if the index leaves the array. -/
def modifyAt {β : Type} (xs : Array β) (i : Nat) (f : β → β) : Part (Array β) :=
  if i < xs.size then Part.some (xs.modify i f) else Part.none

namespace Displaced

/-- The base to try after `base`, if the row does not fit there. -/
def nextBase? (slots : Array (Option (Nat × Nat))) (moves : List (Nat × Nat)) (base : Nat) :
    Option Nat :=
  if fits slots moves base then none else some (base + 1)

/-- Looks for a base at which a row fits, from a given base on. -/
def searchBase (slots : Array (Option (Nat × Nat))) (moves : List (Nat × Nat)) : Nat → Part Nat :=
  StateTransition.eval (nextBase? slots moves)

/-- Adds the moves of the next state. -/
def addMoves (t : Displaced) (moves : List (Nat × Nat)) : Part Displaced := do
  let base ← searchBase t.slots moves 0
  let slots ← moves.foldlM
    (fun slots move => modifyAt slots (base + move.1) fun _ => some (t.bases.size, move.2))
    (extend t.slots (base + t.letters))
  return { t with bases := t.bases.push base, slots := slots }

/-- The owners of the slots. -/
def owners (t : Displaced) : Array Nat := t.slots.map fun slot => (slot.map Prod.fst).getD noState

/-- The states that the moves in the slots lead to. -/
def targets (t : Displaced) : Array Nat := t.slots.map fun slot => (slot.map Prod.snd).getD noState

/-- The state after reading `a` in state `p`, which must be a state. -/
def next? (t : Displaced) (p a : Nat) : Option (Option Nat) :=
  if t.letters ≤ a then some none
  else
    t.bases[p]?.bind fun base =>
      match t.owners[base + a]? with
      | some owner => if owner = p then t.targets[base + a]?.map some else some none
      | none => some none

end Displaced

namespace TransitionMap

/-- The moves of each state, in the order in which they are enumerated. -/
def rows (m : TransitionMap) : Part (Array (List (Nat × Nat))) :=
  m.moves.foldlM
    (fun rows move => modifyAt rows move.1.1 (· ++ [(move.1.2, move.2)]))
    (Array.replicate m.size [])

/-- The terminal that each state accepts. -/
def acceptTable (m : TransitionMap) : Part (Array (Option Nat)) :=
  m.accepts.foldlM (fun accepts entry => modifyAt accepts entry.1 fun _ => some entry.2)
    (Array.replicate m.size none)

/-- Lays out the rows of the map over the given number of letters. -/
def displace (m : TransitionMap) (letters : Nat) : Part Displaced := do
  let rows ← m.rows
  let t ← rows.toList.foldlM (fun t row => Displaced.addMoves t (sortMoves row))
    (Displaced.empty letters)
  let accepts ← m.acceptTable
  return { t with accepts := accepts }

end TransitionMap

/-! ### Checked accesses -/

section Modify

variable {β γ : Type} (index : γ → Nat) (f : γ → β → β)

theorem foldlM_modifyAt {l : List γ} {xs : Array β} (h : ∀ x ∈ l, index x < xs.size) :
    l.foldlM (fun xs x => modifyAt xs (index x) (f x)) xs =
      Part.some (l.foldl (fun xs x => xs.modify (index x) (f x)) xs) := by
  induction l generalizing xs with
  | nil => rfl
  | cons x l ih =>
    obtain ⟨hx, hl⟩ := List.forall_mem_cons.1 h
    have hstep : modifyAt xs (index x) (f x) = Part.some (xs.modify (index x) (f x)) := if_pos hx
    rw [List.foldlM_cons, hstep, Part.bind_eq_bind, Part.bind_some]
    exact ih fun y hy => by simpa using hl y hy

/-- Of the changes those with the index `i` reach the entry there. -/
theorem getElem?_foldl_modify (l : List γ) (xs : Array β) (i : Nat) :
    (l.foldl (fun xs x => xs.modify (index x) (f x)) xs)[i]? =
      xs[i]?.map fun b => (l.filter fun x => index x == i).foldl (fun b x => f x b) b := by
  induction l generalizing xs with
  | nil => simp
  | cons x l ih =>
    rw [List.foldl_cons, ih, Array.getElem?_modify]
    by_cases hx : index x = i
    · rw [if_pos hx, List.filter_cons, if_pos (beq_iff_eq.2 hx), Option.map_map]
      rfl
    · rw [if_neg hx, List.filter_cons, if_neg (by simpa using hx)]

/-- Sorting values into the entries of an array: the entry with the index `i` takes those for `i`. -/
theorem foldlM_modifyAt_replicate {l : List γ} {n : Nat} (h : ∀ x ∈ l, index x < n) (b : β) :
    l.foldlM (fun xs x => modifyAt xs (index x) (f x)) (Array.replicate n b) =
      Part.some ((List.range n).map fun i =>
        (l.filter fun x => index x == i).foldl (fun b x => f x b) b).toArray := by
  rw [foldlM_modifyAt index f (by simpa using h)]
  refine congrArg Part.some (Array.ext_getElem? fun i => ?_)
  rw [getElem?_foldl_modify, Array.getElem?_replicate, List.getElem?_toArray, List.getElem?_map]
  by_cases hi : i < n
  · rw [if_pos hi, List.getElem?_range hi, Option.map_some, Option.map_some]
  · rw [if_neg hi, List.getElem?_eq_none (by rw [List.length_range]; omega), Option.map_none,
      Option.map_none]

theorem modify_const (xs : Array β) (i : Nat) (b : β) :
    xs.modify i (fun _ => b) = xs.setIfInBounds i b := by
  refine Array.ext_getElem? fun j => ?_
  rw [Array.getElem?_modify, Array.getElem?_setIfInBounds]
  split
  · next hij =>
    subst hij
    split
    · next hlt => rw [Array.getElem?_eq_getElem hlt, Option.map_some]
    · next hge => rw [Array.getElem?_eq_none (Nat.le_of_not_lt hge), Option.map_none]
  · rfl

end Modify

namespace Displaced

variable {t : Displaced} {slots : Array (Option (Nat × Nat))} {moves : List (Nat × Nat)}
  {row : DfaRow}

/-! ### The search for a base -/

/-- The search ends behind the last slot, if not before. -/
theorem searchBase_eq_findBaseFrom {n base : Nat} (h : slots.size ≤ base + n) :
    searchBase slots moves base = Part.some (findBaseFrom slots moves n base) := by
  induction n generalizing base with
  | zero =>
    have hstop : nextBase? slots moves base = none := if_pos (fits_of_size_le h moves)
    exact Part.eq_some_iff.2 (StateTransition.mem_eval.2 ⟨.refl, hstop⟩)
  | succ n ih =>
    rw [findBaseFrom]
    split
    · next hfits =>
      have hstop : nextBase? slots moves base = none := if_pos hfits
      exact Part.eq_some_iff.2 (StateTransition.mem_eval.2 ⟨.refl, hstop⟩)
    · next hfits =>
      have hgo : nextBase? slots moves base = some (base + 1) := if_neg hfits
      exact (StateTransition.reaches_eval (.single hgo)).trans (ih (by omega))

theorem searchBase_eq_some (slots : Array (Option (Nat × Nat))) (moves : List (Nat × Nat)) :
    searchBase slots moves 0 = Part.some (findBase slots moves) :=
  searchBase_eq_findBaseFrom (Nat.le_of_eq (Nat.zero_add _).symm)

/-! ### Rows -/

/-- No move of a row is put outside the slots. -/
theorem addMoves_eq_some (hlt : ∀ {a j}, (a, j) ∈ row.moves → a < t.letters)
    (accepts : Array (Option Nat)) :
    addMoves { t with accepts := accepts } row.moves =
      Part.some { t.addRow row with accepts := accepts } := by
  have hbound : ∀ move ∈ row.moves, findBase t.slots row.moves + move.1 <
      (extend t.slots (findBase t.slots row.moves + t.letters)).size := by
    intro move hmove
    refine Nat.lt_of_lt_of_le ?_ (le_size_extend _ _)
    have := hlt (a := move.1) (j := move.2) hmove
    omega
  have hplaced := foldlM_modifyAt (fun move : Nat × Nat => findBase t.slots row.moves + move.1)
    (fun move _ => some (t.bases.size, move.2)) hbound
  simp only [modify_const] at hplaced
  rw [addMoves, searchBase_eq_some, Part.bind_eq_bind, Part.bind_some, hplaced, Part.bind_eq_bind,
    Part.bind_some]
  rfl

theorem foldlM_addMoves {rows : List DfaRow} {letters : Nat} (hletters : t.letters = letters)
    (hrows : ∀ row ∈ rows, ∀ {a j}, (a, j) ∈ row.moves → a < letters)
    (accepts : Array (Option Nat)) :
    (rows.map DfaRow.moves).foldlM addMoves { t with accepts := accepts } =
      Part.some { rows.foldl addRow t with accepts := accepts } := by
  induction rows generalizing t with
  | nil => rfl
  | cons row rows ih =>
    obtain ⟨hrow, hrows⟩ := List.forall_mem_cons.1 hrows
    rw [← hletters] at hrow
    rw [List.map_cons, List.foldlM_cons, addMoves_eq_some hrow, Part.bind_eq_bind, Part.bind_some]
    exact ih (t := t.addRow row) hletters hrows

/-! ### Owners -/

/-- A slot in use lies in the row of its owner. -/
def Owned (t : Displaced) : Prop :=
  ∀ i p j : Nat, t.slots[i]? = some (some (p, j)) → ∃ base, t.bases[p]? = some base ∧ base ≤ i

theorem owned_empty (letters : Nat) : (empty letters).Owned := fun _ _ _ h => by simp [empty] at h

theorem Owned.addRow (h : t.Owned) (hsorted : (row.moves.map Prod.fst).Pairwise (· < ·))
    (hlt : ∀ {a j}, (a, j) ∈ row.moves → a < t.letters) : (t.addRow row).Owned := by
  intro i p j hget
  have hbases : (t.addRow row).bases = t.bases.push (findBase t.slots row.moves) := rfl
  rw [hbases, Array.getElem?_push]
  rcases (getElem?_addRow hsorted hlt).1 hget with ⟨move, -, rfl, rfl, -⟩ | hget
  · exact ⟨_, if_pos rfl, Nat.le_add_right _ _⟩
  · obtain ⟨base, hbase, hle⟩ := h i p j hget
    rw [if_neg (Nat.ne_of_lt (Array.getElem?_eq_some_iff.1 hbase).1)]
    exact ⟨base, hbase, hle⟩

theorem owned_ofDfa {d : Dfa} {letters : Nat} (h : d.Sorted letters) : (ofDfa d letters).Owned := by
  have hfold : ∀ (rows : List DfaRow) (t : Displaced), t.Owned → t.letters = letters →
      (∀ row ∈ rows, (row.moves.map Prod.fst).Pairwise (· < ·) ∧
        ∀ {a j}, (a, j) ∈ row.moves → a < letters) → (rows.foldl addRow t).Owned := by
    intro rows
    induction rows with
    | nil => exact fun t ht _ _ => ht
    | cons row rows ih =>
      intro t ht hletters hrows
      obtain ⟨⟨hsorted, hlt⟩, hrows⟩ := List.forall_mem_cons.1 hrows
      exact ih _ (ht.addRow hsorted (by rw [hletters]; exact hlt)) hletters hrows
  rw [ofDfa, ← Array.foldl_toList]
  exact hfold _ _ (owned_empty letters) rfl h

/-! ### Arrays of numbers -/

/-- Looking a move up in the arrays stays inside them and finds the move, since the number for a free
slot is not that of a state. -/
theorem next?_eq_some (hsize : t.bases.size ≤ noState) {p : Nat} (hp : p < t.bases.size) (a : Nat) :
    t.next? p a = some (t.next p a) := by
  rw [next?, next]
  split
  · rfl
  · rw [Array.getElem?_eq_getElem hp, Option.bind_some, Option.getD_some, owners, targets,
      Array.getElem?_map, Array.getElem?_map]
    cases t.slots[t.bases[p] + a]? with
    | none => rfl
    | some slot =>
      cases slot with
      | none =>
        have hne : noState ≠ p := by omega
        exact if_neg hne
      | some move =>
        simp only [Option.map_some, Option.getD_some]
        split
        · rfl
        · rfl

end Displaced

namespace TransitionMap

open Displaced

variable {m : TransitionMap} {letters : Nat} {d : Dfa}

/-! ### Laying out -/

theorem Bounded.rows_eq_some (h : m.Bounded letters) :
    m.rows = Part.some ((List.range m.size).map m.movesOf).toArray := by
  refine (foldlM_modifyAt_replicate (fun move : (Nat × Nat) × Nat => move.1.1)
    (fun move row => row ++ [(move.1.2, move.2)]) h.source_lt []).trans ?_
  have hrow : ∀ p, (m.moves.filter fun move => move.1.1 == p).foldl
      (fun row move => row ++ [(move.1.2, move.2)]) [] = m.movesOf p := by
    intro p
    rw [List.foldl_append_eq_append, List.nil_append, ← List.flatMap_def, movesOf,
      List.map_eq_flatMap]
  rw [funext hrow]

/-- The last of the values that are written for a state is the only one. -/
theorem foldl_filter_eq_lookup {entries : List (Nat × Nat)} (h : (entries.map Prod.fst).Nodup)
    (p : Nat) : (entries.filter fun entry => entry.1 == p).foldl (fun _ entry => some entry.2) none =
      entries.lookup p := by
  induction entries with
  | nil => rfl
  | cons entry entries ih =>
    obtain ⟨q, v⟩ := entry
    rw [List.map_cons, List.nodup_cons] at h
    by_cases hq : q = p
    · have hnone : (entries.filter fun entry => entry.1 == p) = [] := by
        refine List.filter_eq_nil_iff.2 fun entry hentry heq => h.1 ?_
        exact List.mem_map.2 ⟨entry, hentry, (beq_iff_eq.1 heq).trans hq.symm⟩
      rw [List.filter_cons, if_pos (beq_iff_eq.2 hq), hnone, hq, List.lookup_cons_self]
      rfl
    · rw [List.filter_cons, if_neg (by simpa using hq), ih h.2, List.lookup_cons,
        beq_eq_false_iff_ne.2 (Ne.symm hq)]

theorem Bounded.acceptTable_eq_some (h : m.Bounded letters) :
    m.acceptTable = Part.some ((List.range m.size).map m.accept).toArray := by
  refine (foldlM_modifyAt_replicate Prod.fst (fun (entry : Nat × Nat) _ => some entry.2)
    h.accept_lt none).trans ?_
  rw [funext (foldl_filter_eq_lookup h.accepts_nodup)]
  rfl

/-- Laying out the rows of a map ends without an access outside an array, and gives the table of the
automaton that the map stands for. -/
theorem Bounded.displace_eq_some (h : m.Bounded letters) :
    m.displace letters = Part.some (ofDfa m.toDfa letters) := by
  have hrows : (((List.range m.size).map m.movesOf).toArray.toList.foldlM
      (fun t row => addMoves t (sortMoves row)) (Displaced.empty letters)) =
      Part.some { ofDfa m.toDfa letters with accepts := #[] } := by
    have hlt : ∀ row ∈ m.toDfa.rows.toList, ∀ {a j}, (a, j) ∈ row.moves → a < letters :=
      fun row hrow => (h.sorted_toDfa row hrow).2
    have hfold := foldlM_addMoves (t := Displaced.empty letters) rfl hlt #[]
    rw [ofDfa, ← Array.foldl_toList, ← hfold, toDfa, List.toList_toArray, List.toList_toArray,
      List.map_map, ← List.foldlM_map, List.map_map]
    rfl
  have haccepts : (ofDfa m.toDfa letters).accepts = ((List.range m.size).map m.accept).toArray := by
    refine Array.toList_inj.1 ?_
    rw [(holds_ofDfa h.sorted_toDfa).1.accepts, toDfa, List.toList_toArray, List.toList_toArray,
      List.map_map]
    rfl
  rw [displace, h.rows_eq_some, Part.bind_eq_bind, Part.bind_some, hrows, Part.bind_eq_bind,
    Part.bind_some, h.acceptTable_eq_some, ← haccepts, Part.bind_eq_bind, Part.bind_some]
  rfl

/-- The move of state `p` by the letter `a` belongs in the slot with the number `i`. -/
def Places (t : Displaced) (p a i : Nat) : Prop := ∃ base, t.bases[p]? = some base ∧ base + a = i

/-- A slot in use belongs to one move, and its owner is the state that makes the move. -/
theorem Represents.existsUnique_move (h : m.Represents d) (hd : d.Sorted letters) {i : Nat}
    (hi : inUse (ofDfa d letters).slots i = true) :
    ∃ p a, (ofDfa d letters).owners[i]? = some p ∧ (m.next p a).isSome ∧
      Places (ofDfa d letters) p a i ∧
      ∀ p' a', (m.next p' a').isSome → Places (ofDfa d letters) p' a' i → p' = p ∧ a' = a := by
  obtain ⟨hholds, -⟩ := holds_ofDfa hd
  obtain ⟨⟨p, q⟩, hslot⟩ := Option.isSome_iff_exists.1 hi
  have hget : (ofDfa d letters).slots[i]? = some (some (p, q)) := by
    obtain ⟨slot, hslot', heq⟩ := Option.bind_eq_some_iff.1 hslot
    exact hslot'.trans (congrArg some heq)
  -- what is in the slot of a move is the move
  have hmove : ∀ {p' a' : Nat}, (m.next p' a').isSome → Places (ofDfa d letters) p' a' i →
      ∃ q', (ofDfa d letters).slots[i]? = some (some (p', q')) := by
    rintro p' a' hnext ⟨base, hbase, rfl⟩
    obtain ⟨q', hq'⟩ := Option.isSome_iff_exists.1 hnext
    rw [← h.next, Dfa.next_eq_some_iff hd] at hq'
    obtain ⟨row, hrow, hmem⟩ := hq'
    have := (hholds.moves (by rw [Array.getElem?_toList]; exact hrow) a' q').2 hmem
    rw [hbase, Option.getD_some] at this
    exact ⟨q', this⟩
  obtain ⟨base, hbase, hle⟩ := owned_ofDfa hd i p q hget
  have hlt := hholds.owner_lt hget
  have hrow : d.rows[p]? = some d.rows[p] := Array.getElem?_eq_getElem hlt
  have hmem : (i - base, q) ∈ d.rows[p].moves := by
    refine (hholds.moves (by rw [Array.getElem?_toList]; exact hrow) _ _).1 ?_
    rwa [hbase, Option.getD_some, Nat.add_sub_cancel' hle]
  refine ⟨p, i - base, ?_, ?_, ⟨base, hbase, Nat.add_sub_cancel' hle⟩, ?_⟩
  · rw [owners, Array.getElem?_map, hget]
    rfl
  · rw [← h.next, (Dfa.next_eq_some_iff hd).2 ⟨_, hrow, hmem⟩]
    rfl
  · intro p' a' hnext hplaces
    obtain ⟨q', hget'⟩ := hmove hnext hplaces
    have heq := Option.some.inj (Option.some.inj (hget.symm.trans hget'))
    obtain rfl := (Prod.mk.inj heq).1
    obtain ⟨base', hbase', hi'⟩ := hplaces
    have := Option.some.inj (hbase.symm.trans hbase')
    exact ⟨rfl, by omega⟩

/-- Displacing rows loses nothing. If the letters of a map are below `letters`, its states below its
size, and no state has the number for a free slot, then laying out its rows ends without an access
outside an array, in whatever order the entries come. Looking up any letter in any state finds what the
map says, also in the arrays of numbers and without leaving them, and every state accepts what the map
says. Every slot in use belongs to exactly one move, and the state that makes it is the owner of the
slot. The table is the same for all orders of the entries: it is that of any automaton with ascending
rows which the map represents. -/
theorem displaced_lossless (hm : m.Bounded letters) (hsize : m.size ≤ noState) :
    ∃ t, m.displace letters = Part.some t ∧
      (∀ p < m.size, ∀ a, t.next? p a = some (m.next p a) ∧ t.next p a = m.next p a) ∧
      (∀ p < m.size, t.accepts[p]? = some (m.accept p)) ∧
      (∀ i, inUse t.slots i = true → ∃ p a, t.owners[i]? = some p ∧ (m.next p a).isSome ∧
        Places t p a i ∧
        ∀ p' a', (m.next p' a').isSome → Places t p' a' i → p' = p ∧ a' = a) ∧
      ∀ d : Dfa, d.Sorted letters → m.Represents d → t = ofDfa d letters := by
  have hsorted := hm.sorted_toDfa
  have hrepresents := hm.represents_toDfa
  obtain ⟨hholds, -⟩ := holds_ofDfa hsorted
  have hbases : (ofDfa m.toDfa letters).bases.size = m.size :=
    hholds.size.trans (Array.length_toList.trans hrepresents.size)
  refine ⟨_, hm.displace_eq_some, ?_, ?_, fun i => hrepresents.existsUnique_move hsorted, ?_⟩
  · intro p hp a
    rw [next?_eq_some (by omega) (by omega), next_ofDfa hsorted, hrepresents.next]
    exact ⟨rfl, rfl⟩
  · intro p hp
    have hrow := getElem?_toDfa.2 ⟨hp, rfl⟩
    rw [← Array.getElem?_toList, hholds.accepts, List.getElem?_map, Array.getElem?_toList, hrow]
    rfl
  · intro d hd hdm
    rw [hrepresents.eq hdm hsorted hd]

/-- Four states whose moves share slots, with the entries in no order. -/
def sparse : TransitionMap :=
  ⟨4, [((2, 2), 3), ((0, 3), 2), ((1, 1), 3), ((0, 0), 1), ((1, 0), 1)], [(3, 7)]⟩

theorem displaced_lossless_sparse : ∃ t, sparse.displace 4 = Part.some t ∧ t.next? 0 3 = some (some 2) ∧
    t.next? 1 3 = some none ∧ t.accepts[3]? = some (some 7) := by
  have hbounded : sparse.Bounded 4 :=
    ⟨by decide, by decide, by decide, by decide, by decide⟩
  obtain ⟨t, ht, hnext, haccept, -⟩ := displaced_lossless hbounded (by decide)
  exact ⟨t, ht, (hnext 0 (by decide) 3).1, (hnext 1 (by decide) 3).1, haccept 3 (by decide)⟩

end TransitionMap

end ShiftReduce
