import Mathlib.Computability.Language
import ShiftReduce.Regex.Basic

/-!
# The language of a regular expression

The texts that a regular expression matches, as a language in the usual sense. The leaves are
expressions that match one character each (`Regex.MatchesChar`), and every other node is an operation
on languages. The operations do not depend on what the leaves are about, so the language is first
given over any kind of symbols (`Regex.langOver`); `Regex.lang` is the one over characters.

`nil_mem_langOver` says that the check for the empty text is exact.
-/

namespace ShiftReduce

open Computability

namespace CharClass

/-- The ASCII digits. -/
def IsDigit (c : Char) : Prop := '0' ≤ c ∧ c ≤ '9'

/-- The ASCII digits and letters and the underscore. -/
def IsWord (c : Char) : Prop :=
  '0' ≤ c ∧ c ≤ '9' ∨ 'A' ≤ c ∧ c ≤ 'Z' ∨ c = '_' ∨ 'a' ≤ c ∧ c ≤ 'z'

/-- The ASCII characters from tab to carriage return, and the space. -/
def IsSpace (c : Char) : Prop := '\t' ≤ c ∧ c ≤ '\r' ∨ c = ' '

/-- The characters of a named class. -/
def Matches : CharClass → Char → Prop
  | .digit, c => IsDigit c
  | .word, c => IsWord c
  | .space, c => IsSpace c
  | .notDigit, c => ¬ IsDigit c
  | .notWord, c => ¬ IsWord c
  | .notSpace, c => ¬ IsSpace c

end CharClass

/-- The characters of an item of a bracketed set. -/
def SetItem.Matches : SetItem → Char → Prop
  | .char d, c => c = d
  | .range first last, c => first ≤ c ∧ c ≤ last
  | .cls k, c => k.Matches c

namespace Regex

/-- The characters that a one-character expression matches. -/
def MatchesChar : Regex → Char → Prop
  | .any, c => c ≠ '\n'
  | .char d, c => c = d
  | .cls k, c => k.Matches c
  | .set negated items, c => (∃ item ∈ items, item.Matches c) ↔ negated = false
  | _, _ => False

variable {σ : Type}

/-- The texts of one symbol with the given property. -/
def one (P : σ → Prop) : Language σ := {w | ∃ c, P c ∧ w = [c]}

mutual

/-- The language of an expression over some symbols, where `leaf` tells the symbols that the
one-character expressions match. -/
def langOver (leaf : Regex → σ → Prop) : Regex → Language σ
  | .empty => 1
  | .any => one (leaf .any)
  | .char c => one (leaf (.char c))
  | .set negated items => one (leaf (.set negated items))
  | .cls k => one (leaf (.cls k))
  | .alt rs => altOver leaf rs
  | .concat rs => concatOver leaf rs
  | .optional r => 1 + langOver leaf r
  | .many r => (langOver leaf r)∗
  | .many1 r => langOver leaf r * (langOver leaf r)∗
  | .repeated r min none => langOver leaf r ^ min * (langOver leaf r)∗
  | .repeated r min (some max) =>
    {w | ∃ k, min ≤ k ∧ k ≤ Nat.max min max ∧ w ∈ langOver leaf r ^ k}

/-- What one of the expressions matches. -/
def altOver (leaf : Regex → σ → Prop) : List Regex → Language σ
  | [] => 0
  | r :: rs => langOver leaf r + altOver leaf rs

/-- What the expressions match one after the other. -/
def concatOver (leaf : Regex → σ → Prop) : List Regex → Language σ
  | [] => 1
  | r :: rs => langOver leaf r * concatOver leaf rs

end

/-- The texts that an expression matches. -/
def lang (r : Regex) : Language Char := langOver MatchesChar r

/-! ### The empty text -/

theorem nil_mem_mul {L M : Language σ} : [] ∈ L * M ↔ [] ∈ L ∧ [] ∈ M := by
  rw [Language.mem_mul]
  constructor
  · rintro ⟨a, ha, b, hb, hab⟩
    obtain ⟨rfl, rfl⟩ := List.append_eq_nil_iff.1 hab
    exact ⟨ha, hb⟩
  · rintro ⟨hL, hM⟩
    exact ⟨[], hL, [], hM, rfl⟩

theorem nil_mem_pow {L : Language σ} {n : Nat} : [] ∈ L ^ n ↔ n = 0 ∨ [] ∈ L := by
  induction n with
  | zero => simp
  | succ n ih =>
    rw [pow_succ, nil_mem_mul, ih]
    constructor
    · rintro ⟨-, h⟩
      exact Or.inr h
    · intro h
      have h := h.resolve_left (Nat.succ_ne_zero n)
      exact ⟨Or.inr h, h⟩

theorem not_nil_mem_one (P : σ → Prop) : [] ∉ one P := by
  rintro ⟨c, -, h⟩
  exact List.cons_ne_nil _ _ h.symm

mutual

/-- The check for the empty text is exact. -/
theorem nil_mem_langOver (leaf : Regex → σ → Prop) :
    ∀ r : Regex, [] ∈ langOver leaf r ↔ r.acceptsEmpty = true
  | .empty => by simp [langOver, acceptsEmpty]
  | .any => by simp [langOver, acceptsEmpty, not_nil_mem_one]
  | .char c => by simp [langOver, acceptsEmpty, not_nil_mem_one]
  | .set negated items => by simp [langOver, acceptsEmpty, not_nil_mem_one]
  | .cls k => by simp [langOver, acceptsEmpty, not_nil_mem_one]
  | .alt rs => by
    rw [langOver, acceptsEmpty]
    exact nil_mem_altOver leaf rs
  | .concat rs => by
    rw [langOver, acceptsEmpty]
    exact nil_mem_concatOver leaf rs
  | .optional r => by
    rw [langOver, acceptsEmpty, Language.mem_add]
    exact iff_of_true (Or.inl rfl) rfl
  | .many r => by
    rw [langOver, acceptsEmpty]
    exact iff_of_true (Language.nil_mem_kstar _) rfl
  | .many1 r => by
    rw [langOver, acceptsEmpty, nil_mem_mul, nil_mem_langOver leaf r]
    exact and_iff_left (Language.nil_mem_kstar _)
  | .repeated r min none => by
    rw [langOver, acceptsEmpty, nil_mem_mul, nil_mem_pow, nil_mem_langOver leaf r, Bool.or_eq_true,
      beq_iff_eq]
    exact and_iff_left (Language.nil_mem_kstar _)
  | .repeated r min (some max) => by
    rw [langOver, acceptsEmpty, Bool.or_eq_true, beq_iff_eq, ← nil_mem_langOver leaf r]
    constructor
    · rintro ⟨k, hmin, -, hk⟩
      rcases nil_mem_pow.1 hk with rfl | h
      · exact Or.inl (Nat.le_zero.1 hmin)
      · exact Or.inr h
    · intro h
      exact ⟨min, Nat.le_refl _, Nat.le_max_left _ _, nil_mem_pow.2 h⟩

theorem nil_mem_altOver (leaf : Regex → σ → Prop) :
    ∀ rs : List Regex, [] ∈ altOver leaf rs ↔ anyAcceptsEmpty rs = true
  | [] => by simp [altOver, anyAcceptsEmpty]
  | r :: rs => by
    rw [altOver, anyAcceptsEmpty, Language.mem_add, Bool.or_eq_true, nil_mem_langOver leaf r,
      nil_mem_altOver leaf rs]

theorem nil_mem_concatOver (leaf : Regex → σ → Prop) :
    ∀ rs : List Regex, [] ∈ concatOver leaf rs ↔ allAcceptEmpty rs = true
  | [] => by simp [concatOver, allAcceptEmpty]
  | r :: rs => by
    rw [concatOver, allAcceptEmpty, nil_mem_mul, Bool.and_eq_true, nil_mem_langOver leaf r,
      nil_mem_concatOver leaf rs]

end

/-- The check for the empty text is exact. -/
theorem acceptsEmpty_iff (r : Regex) : r.acceptsEmpty = true ↔ [] ∈ r.lang :=
  (nil_mem_langOver MatchesChar r).symm

end Regex

end ShiftReduce
