import ShiftReduce.Regex.Escape
import ShiftReduce.Regex.Reader
import ShiftReduce.Proofs.Regex.Language

/-!
# Escaped texts

A text whose special characters are escaped is read back as the expression for this text
(`Regex.parseWith_escape`), and this expression matches the text and nothing else
(`Regex.mem_lang_literal`). No two texts are escaped in the same way. Of the alphanumeric characters
nothing is used but that no special character is among them.
-/

namespace ShiftReduce.Regex

open Text

/-! ### Special characters -/

/-- It is enough to look at the special characters one by one. -/
theorem forall_isMeta {P : Char → Prop} [DecidablePred P]
    (h : (['\\', '.', '+', '*', '?', '(', ')', '|', '[', ']', '{', '}', '^', '$'].all fun c =>
      decide (P c)) = true) : ∀ c, isMeta c = true → P c :=
  fun c hc => of_decide_eq_true (List.all_eq_true.1 h c (List.contains_iff_mem.1 hc))

/-- No special character is alphanumeric. -/
theorem isAlphanumeric_of_isMeta : ∀ c, isMeta c = true → isAlphanumeric c = false :=
  forall_isMeta (by decide +kernel)

/-! ### Reading -/

variable {alnum : Char → Bool} (halnum : ∀ c, isMeta c = true → alnum c = false)

include halnum in
/-- After its backslash a special character stands for itself. -/
theorem readEscape_of_isMeta {c : Char} (h : isMeta c = true) (start rest : List Char) :
    readEscape alnum start (c :: rest) = .ok (.char c, rest) := by
  have hnames : ∀ c, isMeta c = true → namedEscape c = none ∧ c ≠ 'x' ∧ c ≠ 'u' :=
    forall_isMeta (by decide)
  obtain ⟨hnamed, hx, hu⟩ := hnames c h
  rw [readEscape, hnamed]
  simp only [if_neg hx, if_neg hu, halnum c h, Bool.false_eq_true, if_false]

/-- An escaped text goes on with a backslash or a character that is not special. -/
theorem head_escaped {cs : List Char} {c : Char} {rest : List Char}
    (h : cs.flatMap escapeChar = c :: rest) : c = '\\' ∨ isMeta c = false := by
  cases cs with
  | nil => exact absurd h (by simp)
  | cons d cs =>
    rw [List.flatMap_cons, escapeChar] at h
    split at h
    · exact Or.inl (List.cons.inj h).1.symm
    · next hmeta =>
      rw [← (List.cons.inj h).1]
      exact Or.inr (Bool.not_eq_true _ ▸ hmeta)

theorem ne_of_isMeta_eq_false {c d : Char} (hc : isMeta c = false) (hd : isMeta d = true) :
    c ≠ d := by
  rintro rfl
  exact absurd (hc.symm.trans hd) (by simp)

/-- Nothing in an escaped text repeats what comes before. -/
theorem readSuffixes_escaped (fuel : Nat) (r : Regex) (cs : List Char) :
    readSuffixes fuel r (cs.flatMap escapeChar) = .ok (r, cs.flatMap escapeChar) := by
  cases fuel with
  | zero => rfl
  | succ fuel =>
    cases hcs : cs.flatMap escapeChar with
    | nil => rfl
    | cons c rest =>
      have hne : c ≠ '*' ∧ c ≠ '+' ∧ c ≠ '?' ∧ c ≠ '{' := by
        rcases head_escaped hcs with rfl | hmeta
        · decide
        · exact ⟨ne_of_isMeta_eq_false hmeta rfl, ne_of_isMeta_eq_false hmeta rfl,
            ne_of_isMeta_eq_false hmeta rfl, ne_of_isMeta_eq_false hmeta rfl⟩
      obtain ⟨hmany, hmany1, hoptional, hrepeated⟩ := hne
      rw [readSuffixes, if_neg hmany, if_neg hmany1, if_neg hoptional, if_neg hrepeated]

include halnum in
/-- An escaped character is read as this character. -/
theorem readSequence_escapeChar (fuel : Nat) (c : Char) (cs : List Char) :
    readSequence alnum (fuel + 2) (escapeChar c ++ cs.flatMap escapeChar) = (do
      let (items, rest) ← readSequence alnum (fuel + 1) (cs.flatMap escapeChar)
      .ok (.char c :: items, rest)) := by
  rw [escapeChar]
  split
  · next hc =>
    rw [List.cons_append, List.cons_append, List.nil_append, readSequence, if_neg (by decide),
      readAtom, if_neg (by decide), if_neg (by decide), if_neg (by decide), if_pos rfl,
      readEscape_of_isMeta halnum hc]
    simp only [bind, Except.bind, readSuffixes_escaped]
  · next hc =>
    rw [Bool.not_eq_true] at hc
    have hne : ∀ d, isMeta d = true → c ≠ d := fun d => ne_of_isMeta_eq_false hc
    rw [List.cons_append, List.nil_append, readSequence,
      if_neg (not_or.2 ⟨hne '|' rfl, hne ')' rfl⟩), readAtom, if_neg (hne '(' rfl),
      if_neg (hne '[' rfl), if_neg (hne '.' rfl), if_neg (hne '\\' rfl),
      if_neg (not_or.2 ⟨hne '*' rfl, not_or.2 ⟨hne '+' rfl, not_or.2 ⟨hne '?' rfl, hne '{' rfl⟩⟩⟩),
      if_neg (not_or.2 ⟨hne '^' rfl, hne '$' rfl⟩)]
    simp only [bind, Except.bind, readSuffixes_escaped]

include halnum in
theorem readSequence_escaped {fuel : Nat} (cs : List Char) (h : cs.length < fuel) :
    readSequence alnum fuel (cs.flatMap escapeChar) = .ok (cs.map char, []) := by
  induction cs generalizing fuel with
  | nil =>
    obtain ⟨fuel, rfl⟩ := Nat.exists_eq_succ_of_ne_zero (Nat.ne_of_gt h)
    rfl
  | cons c cs ih =>
    rw [List.length_cons] at h
    obtain ⟨fuel, rfl⟩ : ∃ k, fuel = k + 2 := ⟨fuel - 2, by omega⟩
    rw [List.flatMap_cons, readSequence_escapeChar halnum, ih (by omega)]
    rfl

theorem length_le_flatMap_escapeChar (cs : List Char) :
    cs.length ≤ (cs.flatMap escapeChar).length := by
  induction cs with
  | nil => exact le_rfl
  | cons c cs ih =>
    rw [List.flatMap_cons, List.length_append, List.length_cons, escapeChar]
    split
    · rw [List.length_cons, List.length_singleton]
      omega
    · rw [List.length_singleton]
      omega

include halnum in
/-- An escaped text is read as the expression for the text. -/
theorem parseWith_escape (text : String) : parseWith alnum (escape text) = .ok (literal text) := by
  have hfuel := length_le_flatMap_escapeChar text.toList
  rw [parseWith, escape, String.toList_ofList, readPattern, readAlternatives,
    readSequence_escaped halnum text.toList (by omega)]
  rfl

theorem parse_escape (text : String) : parse (escape text) = .ok (literal text) :=
  parseWith_escape isAlphanumeric_of_isMeta text

/-! ### Matching -/

theorem mem_one_char {w : List Char} {c : Char} : w ∈ one (MatchesChar (.char c)) ↔ w = [c] := by
  constructor
  · rintro ⟨d, hd, rfl⟩
    rw [show d = c from hd]
  · rintro rfl
    exact ⟨c, rfl, rfl⟩

theorem mem_concatOver_char {w cs : List Char} :
    w ∈ concatOver MatchesChar (cs.map char) ↔ w = cs := by
  induction cs generalizing w with
  | nil => exact Language.mem_one w
  | cons c cs ih =>
    rw [List.map_cons, concatOver, Language.mem_mul]
    constructor
    · rintro ⟨u, hu, v, hv, rfl⟩
      rw [mem_one_char.1 hu, ih.1 hv, List.singleton_append]
    · rintro rfl
      exact ⟨[c], mem_one_char.2 rfl, cs, ih.2 rfl, rfl⟩

/-- The expression for a text matches exactly this text. -/
theorem mem_lang_literal {w : List Char} {text : String} :
    w ∈ (literal text).lang ↔ w = text.toList := by
  rw [literal, lang]
  cases hcs : text.toList with
  | nil => exact Language.mem_one w
  | cons c cs =>
    cases cs with
    | nil => exact mem_one_char
    | cons d cs => exact @mem_concatOver_char w (c :: d :: cs)

/-- Reading undoes escaping, what is read matches the text and nothing else, and so no two texts are escaped
in the same way. Reading undoes escaping for every class of alphanumeric characters that leaves out the
special ones. -/
theorem escape_inverted :
    (∀ alnum : Char → Bool, (∀ c, isMeta c = true → alnum c = false) →
      ∀ text, parseWith alnum (escape text) = .ok (literal text)) ∧
    (∀ text, parse (escape text) = .ok (literal text) ∧ (literal text).lang = {text.toList}) ∧
      Function.Injective escape := by
  have hlang : ∀ text, (literal text).lang = {text.toList} := fun text =>
    Set.ext fun w => mem_lang_literal
  refine ⟨fun _ halnum => parseWith_escape halnum, fun text => ⟨parse_escape text, hlang text⟩,
    fun text text' h => ?_⟩
  have hliteral : literal text = literal text' := by
    have hread := parse_escape text
    rw [h, parse_escape text'] at hread
    exact (Except.ok.inj hread).symm
  have htext : text.toList ∈ (literal text').lang := hliteral ▸ mem_lang_literal.2 rfl
  exact String.toList_inj.1 (mem_lang_literal.1 htext)

/-- For the reader that knows the letters and digits of ASCII only, no special character is alphanumeric. -/
theorem escape_inverted_ascii : (∀ c, isMeta c = true → c.isAlphanum = false) ∧
    parseWith Char.isAlphanum (escape "é.b") = .ok (.concat [.char 'é', .char '.', .char 'b']) := by
  have halnum : ∀ c, isMeta c = true → c.isAlphanum = false := forall_isMeta (by decide)
  exact ⟨halnum, escape_inverted.1 Char.isAlphanum halnum "é.b"⟩

end ShiftReduce.Regex
