import ShiftReduce.Automaton.Recognizer

/-!
# The longest accepted beginning

`Recognizer.acceptsAfter` is what a recognizer accepts after a whole text, and `Recognizer.munch`
finds the longest non-empty beginning of a text for which that is something (`munch_eq_some_iff`,
`munch_eq_none_iff`). Two recognizers whose states correspond accept the same
(`acceptsAfter_of_simulation`), and so they find the same beginnings.
-/

namespace ShiftReduce

/-- The match is the longest non-empty beginning of the text for which there is a terminal. -/
structure Match.IsLongest (terminalOf : List Char → Option Nat) (cs : List Char) (found : Match) :
    Prop where
  append : found.lexeme ++ found.rest = cs
  ne_nil : found.lexeme ≠ []
  terminal : terminalOf found.lexeme = some found.terminal
  longest : ∀ u v, u ++ v = found.rest → u ≠ [] → terminalOf (found.lexeme ++ u) = none

/-- There is no terminal for any non-empty beginning, or there is a longest one. -/
theorem exists_isLongest (terminalOf : List Char → Option Nat) (cs : List Char) :
    (∀ u v, u ++ v = cs → u ≠ [] → terminalOf u = none) ∨
      ∃ found : Match, found.IsLongest terminalOf cs := by
  induction cs generalizing terminalOf with
  | nil =>
    left
    intro u v huv hu
    exact absurd (List.append_eq_nil_iff.1 huv).1 hu
  | cons c cs ih =>
    rcases ih fun u => terminalOf (c :: u) with hnone | ⟨⟨w, rest, t⟩, hfound⟩
    · cases hone : terminalOf [c] with
      | none =>
        left
        intro u v huv hu
        cases u with
        | nil => exact absurd rfl hu
        | cons d u =>
          obtain ⟨rfl, htail⟩ := List.cons.inj huv
          cases u with
          | nil => exact hone
          | cons e u => exact hnone (e :: u) v htail (List.cons_ne_nil e u)
      | some t =>
        exact Or.inr ⟨⟨[c], cs, t⟩, rfl, List.cons_ne_nil c [], hone, hnone⟩
    · exact Or.inr ⟨⟨c :: w, rest, t⟩, congrArg (c :: ·) hfound.append, List.cons_ne_nil c w,
        hfound.terminal, hfound.longest⟩

namespace Recognizer

variable {σ τ : Type} {m : Recognizer σ} {letter : Char → Nat} {s : σ}

/-- What is accepted after reading a text from the state `s` on, if it can be read at all. -/
def acceptsAfter (m : Recognizer σ) (letter : Char → Nat) (s : σ) : List Char → Option Nat
  | [] => m.accept s
  | c :: cs => (m.next s (letter c)).bind fun s' => acceptsAfter m letter s' cs

@[simp] theorem acceptsAfter_nil : m.acceptsAfter letter s [] = m.accept s := rfl

theorem acceptsAfter_cons {c : Char} {s' : σ} (h : m.next s (letter c) = some s')
    (cs : List Char) : m.acceptsAfter letter s (c :: cs) = m.acceptsAfter letter s' cs := by
  rw [acceptsAfter, h, Option.bind_some]

theorem longestFrom_of_none {n : Nat} {best : Option (Nat × Nat)} {cs : List Char}
    (h : ∀ u v, u ++ v = cs → u ≠ [] → m.acceptsAfter letter s u = none) :
    m.longestFrom letter s n best cs = best := by
  induction cs generalizing s n with
  | nil => rfl
  | cons c cs ih =>
    rw [longestFrom]
    split
    · rfl
    · next s' hnext =>
      have hone : m.accept s' = none := by
        have := h [c] cs rfl (List.cons_ne_nil c [])
        rwa [acceptsAfter_cons hnext] at this
      rw [hone]
      refine ih ?_
      intro u v huv hu
      rw [← acceptsAfter_cons hnext]
      exact h (c :: u) v (congrArg (c :: ·) huv) (List.cons_ne_nil c u)

theorem longestFrom_of_some {n t : Nat} {best : Option (Nat × Nat)} {w rest : List Char}
    (hw : w ≠ []) (haccept : m.acceptsAfter letter s w = some t)
    (hrest : ∀ u v, u ++ v = rest → u ≠ [] → m.acceptsAfter letter s (w ++ u) = none) :
    m.longestFrom letter s n best (w ++ rest) = some (n + w.length, t) := by
  induction w generalizing s n best with
  | nil => exact absurd rfl hw
  | cons c w ih =>
    obtain ⟨s', hnext, haccept'⟩ := Option.bind_eq_some_iff.1 haccept
    have hrest' : ∀ u v, u ++ v = rest → u ≠ [] → m.acceptsAfter letter s' (w ++ u) = none := by
      intro u v huv hu
      rw [← acceptsAfter_cons hnext]
      exact hrest u v huv hu
    rw [List.cons_append, longestFrom, hnext]
    cases w with
    | nil =>
      have haccept'' : m.accept s' = some t := haccept'
      simp only [haccept'']
      exact longestFrom_of_none hrest'
    | cons d w =>
      have hlength : n + (c :: d :: w).length = n + 1 + (d :: w).length := by
        simp only [List.length_cons]
        omega
      rw [hlength]
      simp only
      split
      · exact ih (List.cons_ne_nil d w) haccept' hrest'
      · exact ih (List.cons_ne_nil d w) haccept' hrest'

theorem munch_of_isLongest {cs : List Char} {found : Match}
    (h : found.IsLongest (m.acceptsAfter letter s) cs) : m.munch letter s cs = some found := by
  obtain ⟨w, rest, t⟩ := found
  obtain rfl : w ++ rest = cs := h.append
  rw [munch, longestFrom_of_some h.ne_nil h.terminal h.longest]
  simp

/-- A text is cut after the longest beginning that is accepted. -/
theorem munch_eq_some_iff {cs : List Char} {found : Match} :
    m.munch letter s cs = some found ↔ found.IsLongest (m.acceptsAfter letter s) cs := by
  constructor
  · intro h
    rcases exists_isLongest (m.acceptsAfter letter s) cs with hnone | ⟨found', hfound'⟩
    · rw [munch, longestFrom_of_none hnone] at h
      exact absurd h (by simp)
    · rw [munch_of_isLongest hfound', Option.some.injEq] at h
      exact h ▸ hfound'
  · exact munch_of_isLongest

/-- A text is not cut only if no beginning of it is accepted. -/
theorem munch_eq_none_iff {cs : List Char} : m.munch letter s cs = none ↔
    ∀ u v, u ++ v = cs → u ≠ [] → m.acceptsAfter letter s u = none := by
  constructor
  · intro h
    rcases exists_isLongest (m.acceptsAfter letter s) cs with hnone | ⟨found, hfound⟩
    · exact hnone
    · rw [munch_of_isLongest hfound] at h
      exact absurd h (by simp)
  · intro h
    rw [munch, longestFrom_of_none h, Option.map_none]

/-- Recognizers whose states correspond accept the same. -/
theorem acceptsAfter_of_simulation {m' : Recognizer τ} {R : σ → τ → Prop}
    (haccept : ∀ {s t}, R s t → m.accept s = m'.accept t)
    (hnext : ∀ {s t}, R s t → ∀ c : Char,
      Option.Rel R (m.next s (letter c)) (m'.next t (letter c)))
    {t : τ} (h : R s t) (cs : List Char) :
    m.acceptsAfter letter s cs = m'.acceptsAfter letter t cs := by
  induction cs generalizing s t with
  | nil => exact haccept h
  | cons c cs ih =>
    rw [acceptsAfter, acceptsAfter]
    have hstep := hnext h c
    generalize m.next s (letter c) = o at hstep ⊢
    generalize m'.next t (letter c) = o' at hstep ⊢
    cases hstep with
    | some hst => exact ih hst
    | none => rfl

end Recognizer

end ShiftReduce
