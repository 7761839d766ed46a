/-!
# Recognizers

What the token loop needs of an automaton, whichever way the automaton is run: a first state, the
state after a letter, if the automaton can go on, and the terminal that a state accepts, if any.
`Recognizer.munch` runs a recognizer over a text as far as it goes and keeps the longest part after
which it accepted.
-/

namespace ShiftReduce

/-- An automaton over letters with states of type `σ`, as the token loop sees it. -/
structure Recognizer (σ : Type) where
  start : σ
  next : σ → Nat → Option σ
  accept : σ → Option Nat

/-- The beginning of a text that a terminal matches, and the rest of the text. -/
structure Match where
  lexeme : List Char
  rest : List Char
  terminal : Nat
deriving DecidableEq

namespace Recognizer

/-- Runs over a text from the state `s` on, after `n` characters have been read, and keeps the
greatest number of characters after which the recognizer has accepted, with the terminal; `best` is
what has been kept so far. -/
def longestFrom {σ : Type} (m : Recognizer σ) (letter : Char → Nat) (s : σ) (n : Nat)
    (best : Option (Nat × Nat)) : List Char → Option (Nat × Nat)
  | [] => best
  | c :: cs =>
    match m.next s (letter c) with
    | none => best
    | some s' =>
      match m.accept s' with
      | some t => longestFrom m letter s' (n + 1) (some (n + 1, t)) cs
      | none => longestFrom m letter s' (n + 1) best cs

/-- The longest non-empty beginning of the text after which the recognizer, started in `s`, accepts,
and the terminal accepted there. -/
def munch {σ : Type} (m : Recognizer σ) (letter : Char → Nat) (s : σ) (cs : List Char) :
    Option Match :=
  (m.longestFrom letter s 0 none cs).map fun best =>
    ⟨cs.take best.1, cs.drop best.1, best.2⟩

/-- What is kept was kept before, or is found within the text. -/
theorem longestFrom_eq_some {σ : Type} (m : Recognizer σ) (letter : Char → Nat) {s : σ}
    {n k t : Nat} {best : Option (Nat × Nat)} {cs : List Char}
    (h : m.longestFrom letter s n best cs = some (k, t)) :
    best = some (k, t) ∨ n < k ∧ k ≤ n + cs.length := by
  induction cs generalizing s n best with
  | nil => exact Or.inl h
  | cons c cs ih =>
    simp only [longestFrom] at h
    split at h
    · exact Or.inl h
    · split at h
      · rcases ih h with heq | ⟨hlt, hle⟩
        · simp only [Option.some.injEq, Prod.mk.injEq] at heq
          simp only [List.length_cons]
          omega
        · simp only [List.length_cons]
          omega
      · rcases ih h with heq | ⟨hlt, hle⟩
        · exact Or.inl heq
        · simp only [List.length_cons]
          omega

/-- A match is a non-empty beginning of the text. -/
theorem append_of_munch {σ : Type} (m : Recognizer σ) (letter : Char → Nat) {s : σ}
    {cs : List Char} {found : Match} (h : m.munch letter s cs = some found) :
    found.lexeme ≠ [] ∧ found.lexeme ++ found.rest = cs := by
  obtain ⟨⟨k, t⟩, hbest, rfl⟩ := Option.map_eq_some_iff.1 h
  rcases m.longestFrom_eq_some letter hbest with hnone | ⟨hlt, hle⟩
  · exact absurd hnone (by simp)
  · refine ⟨?_, List.take_append_drop k cs⟩
    intro hnil
    have hlen := congrArg List.length hnil
    simp only [List.length_take, List.length_nil] at hlen
    omega

/-- What is left after a match is shorter than the text. -/
theorem length_rest_lt {σ : Type} (m : Recognizer σ) (letter : Char → Nat) {s : σ}
    {cs : List Char} {found : Match} (h : m.munch letter s cs = some found) :
    found.rest.length < cs.length := by
  obtain ⟨hne, happend⟩ := append_of_munch m letter h
  rw [← happend, List.length_append]
  have := List.length_pos_iff.2 hne
  omega

end Recognizer

end ShiftReduce
