import Mathlib.Logic.Relation
import ShiftReduce.Reach
import ShiftReduce.Proofs.Counting

/-!
# The search finds what can be reached

`mem_reach` says that the search finds exactly the vertices to which there is a path. A vertex that
has been seen and is not to be visited any more has all its neighbours among those seen, and every
visit is paid for by a vertex that is seen for the first time.
-/

namespace ShiftReduce

/-- A path along `next`. -/
def Leads (next : Nat → List Nat) : Nat → Nat → Prop :=
  Relation.ReflTransGen fun v w => w ∈ next v

theorem IdSet.card_insert_of_not_mem {s : IdSet} {i : Nat} (h : i ∉ s) :
    s.card < (s.insert i).card := by
  refine IdSet.card_lt_card (fun j hj => IdSet.mem_insert.2 (Or.inl hj)) ?_
  intro heq
  rw [heq] at h
  exact h (IdSet.mem_insert.2 (Or.inr rfl))

/-- What discovering the neighbours of a vertex does. -/
theorem foldl_discover (ws : List Nat) (todo : List Nat) (seen : IdSet) :
    (∀ v, v ∈ (ws.foldl discover (todo, seen)).2 ↔ v ∈ seen ∨ v ∈ ws) ∧
    (∀ v, v ∈ (ws.foldl discover (todo, seen)).1 ↔ v ∈ todo ∨ v ∉ seen ∧ v ∈ ws) ∧
    (ws.foldl discover (todo, seen)).1.length + seen.card ≤
      todo.length + (ws.foldl discover (todo, seen)).2.card := by
  induction ws generalizing todo seen with
  | nil => simp
  | cons w ws ih =>
    rw [List.foldl_cons]
    by_cases hw : w ∈ seen
    · have hstep : discover (todo, seen) w = (todo, seen) := if_pos hw
      obtain ⟨hseen, htodo, hlength⟩ := ih todo seen
      rw [hstep]
      refine ⟨fun v => ?_, fun v => ?_, hlength⟩
      · rw [hseen, List.mem_cons]
        constructor
        · exact Or.imp_right Or.inr
        · rintro (h | rfl | h)
          · exact Or.inl h
          · exact Or.inl hw
          · exact Or.inr h
      · rw [htodo, List.mem_cons]
        refine or_congr_right (and_congr_right fun hv => ?_)
        refine (or_iff_right ?_).symm
        rintro rfl
        exact hv hw
    · have hstep : discover (todo, seen) w = (w :: todo, seen.insert w) := if_neg hw
      obtain ⟨hseen, htodo, hlength⟩ := ih (w :: todo) (seen.insert w)
      rw [hstep]
      refine ⟨fun v => ?_, fun v => ?_, ?_⟩
      · rw [hseen, IdSet.mem_insert, List.mem_cons, or_assoc]
      · rw [htodo, IdSet.mem_insert, List.mem_cons, List.mem_cons, not_or]
        by_cases hv : v = w
        · subst hv
          simp [hw]
        · simp [hv]
      · have := IdSet.card_insert_of_not_mem hw
        simp only [List.length_cons] at hlength
        omega

theorem visit_spec {next : Nat → List Nat} {bound : Nat}
    (hnext : ∀ v < bound, ∀ w ∈ next v, w < bound) {start : IdSet} {fuel : Nat}
    {todo : List Nat} {seen : IdSet} (hstart : ∀ v ∈ start, v ∈ seen)
    (hbelow : seen.Below bound) (htodo : ∀ v ∈ todo, v ∈ seen)
    (hsound : ∀ v ∈ seen, ∃ s ∈ start, Leads next s v)
    (hdone : ∀ v ∈ seen, v ∉ todo → ∀ w ∈ next v, w ∈ seen)
    (hfuel : todo.length + bound ≤ fuel + seen.card) (v : Nat) :
    v ∈ visit next fuel (todo, seen) ↔ ∃ s ∈ start, Leads next s v := by
  -- with nothing left to visit, what has been seen is closed under `next`
  have hend : ∀ {todo : List Nat} {seen : IdSet}, todo = [] → (∀ v ∈ start, v ∈ seen) →
      (∀ v ∈ seen, ∃ s ∈ start, Leads next s v) →
      (∀ v ∈ seen, v ∉ todo → ∀ w ∈ next v, w ∈ seen) →
      (v ∈ seen ↔ ∃ s ∈ start, Leads next s v) := by
    rintro todo seen rfl hstart hsound hdone
    refine ⟨hsound v, ?_⟩
    rintro ⟨s, hs, hpath⟩
    induction hpath with
    | refl => exact hstart s hs
    | tail _ hstep ih => exact hdone _ ih List.not_mem_nil _ hstep
  induction fuel generalizing todo seen with
  | zero =>
    have hcard := IdSet.card_le_of_below hbelow
    have hnil : todo = [] := List.eq_nil_of_length_eq_zero (by omega)
    have hvisit : visit next 0 (todo, seen) = seen := rfl
    rw [hvisit]
    exact hend hnil hstart hsound hdone
  | succ fuel ih =>
    cases todo with
    | nil =>
      have hvisit : visit next (fuel + 1) ([], seen) = seen := rfl
      rw [hvisit]
      exact hend rfl hstart hsound hdone
    | cons u todo =>
      have hu := htodo u List.mem_cons_self
      obtain ⟨hseen', htodo', hlength⟩ := foldl_discover (next u) todo seen
      have hvisit : visit next (fuel + 1) (u :: todo, seen) = visit next fuel
          (((next u).foldl discover (todo, seen)).1, ((next u).foldl discover (todo, seen)).2) := rfl
      rw [hvisit]
      refine ih ?_ ?_ ?_ ?_ ?_ ?_
      · exact fun v hv => (hseen' v).2 (Or.inl (hstart v hv))
      · intro v hv
        rcases (hseen' v).1 hv with hv | hv
        · exact hbelow v hv
        · exact hnext u (hbelow u hu) v hv
      · intro v hv
        rcases (htodo' v).1 hv with hv | ⟨-, hv⟩
        · exact (hseen' v).2 (Or.inl (htodo v (List.mem_cons_of_mem _ hv)))
        · exact (hseen' v).2 (Or.inr hv)
      · intro v hv
        rcases (hseen' v).1 hv with hv | hv
        · exact hsound v hv
        · obtain ⟨s, hs, hpath⟩ := hsound u hu
          exact ⟨s, hs, hpath.tail hv⟩
      · -- a vertex that is not to be visited was not before, or is the one visited now
        intro v hv hnot w hw
        rw [htodo', not_or, not_and] at hnot
        have hold : v ∈ seen := by
          rcases (hseen' v).1 hv with hold | hmem
          · exact hold
          · by_contra hseen
            exact hnot.2 hseen hmem
        by_cases hvu : v = u
        · rw [hvu] at hw
          exact (hseen' w).2 (Or.inr hw)
        · refine (hseen' w).2 (Or.inl (hdone v hold ?_ w hw))
          rw [List.mem_cons, not_or]
          exact ⟨hvu, hnot.1⟩
      · simp only [List.length_cons] at hfuel
        omega

/-- The search finds exactly the vertices to which there is a path. -/
theorem mem_reach {next : Nat → List Nat} {bound : Nat}
    (hnext : ∀ v < bound, ∀ w ∈ next v, w < bound) {start : IdSet} (hstart : start.Below bound)
    {v : Nat} : v ∈ reach next bound start ↔ ∃ s ∈ start, Leads next s v := by
  refine visit_spec hnext (fun v hv => hv) hstart (fun v hv => IdSet.mem_toList.1 hv)
    (fun v hv => ⟨v, hv, .refl⟩) ?_ ?_ v
  · intro v hv hnot
    exact absurd (IdSet.mem_toList.2 hv) hnot
  · rw [IdSet.card]
    omega

end ShiftReduce
