import Mathlib.Data.Nat.Digits.Defs
import ShiftReduce.Regex.Reader

/-!
# The language of patterns

How patterns are written, as a grammar over texts. `Regex.IsWritten text r` says that the text is a pattern
for the expression `r`: alternatives are sequences between bars, a sequence is a run of items, and an item
is an atom with its suffixes (`Regex.Written`). The parts below are relations of their own: escapes
(`Regex.IsEscape`), the items of sets (`Regex.IsSetBody`) and the bounds of repetitions
(`Regex.IsBounds`), whose numbers may be of any size.

The letters and numbers of all scripts are the argument `alnum`, as they are for the readers. The grammar
says nothing about how a text is read. It looks ahead in one place only, which is the dash in a
set. A caret at the beginning of a set is always the mark of negation.

Everything that can be written is in order (`Regex.IsWritten.inOrder`): bounds and ranges are, and no set
is empty.
-/

namespace ShiftReduce.Regex

open Text

/-! ### Escapes -/

/-- The escapes of one letter or digit, with what they stand for. -/
def escapes : List (Char × Escaped) :=
  [('n', .char '\n'), ('r', .char '\r'), ('t', .char '\t'), ('f', .char '\x0c'), ('v', .char '\x0b'),
    ('0', .char '\x00'), ('d', .cls .digit), ('w', .cls .word), ('s', .cls .space),
    ('D', .cls .notDigit), ('W', .cls .notWord), ('S', .cls .notSpace)]

/-- The letters that announce a code point, with the number of its digits. -/
def codePointMarks : List (Char × Nat) := [('x', 2), ('u', 4)]

/-- The letters and digits that escapes begin with. -/
def escapeNames : List Char := escapes.map Prod.fst ++ codePointMarks.map Prod.fst

/-- The digits write the number `n`, the first one being the greatest in value. -/
def IsNumeral (base : Nat) (value : Char → Option Nat) (ds : List Char) (n : Nat) : Prop :=
  ∃ values, List.Forall₂ (fun d v => value d = some v) ds values ∧ n = Nat.ofDigits base values.reverse

-- the letters and numbers of all scripts
variable (alnum : Char → Bool)

/-- What comes after a backslash, and what it stands for. Every character that is not alphanumeric and
names no escape stands for itself. -/
inductive IsEscape : List Char → Escaped → Prop
  | named {c : Char} {e : Escaped} (h : (c, e) ∈ escapes) : IsEscape [c] e
  | codePoint {mark : Char} {ds : List Char} {code : Nat} (hmark : (mark, ds.length) ∈ codePointMarks)
    (hcode : IsNumeral 16 hexValue ds code) (hvalid : code.isValidChar) :
    IsEscape (mark :: ds) (.char (Char.ofNat code))
  | plain {c : Char} (h : alnum c = false) (hname : c ∉ escapeNames) : IsEscape [c] (.char c)

/-! ### Sets -/

/-- One character of a set, by itself or as an escape. -/
inductive IsMember : List Char → Char → Prop
  | plain {c : Char} (hclose : c ≠ ']') (hescape : c ≠ '\\') : IsMember [c] c
  | escaped {cs : List Char} {c : Char} (h : IsEscape alnum cs (.char c)) : IsMember ('\\' :: cs) c

/-- The items of a set. A dash behind a character makes a range, unless it is the last thing in the set. -/
inductive IsSetBody : List Char → List SetItem → Prop
  | nil : IsSetBody [] []
  | cls {cs ds : List Char} {k : CharClass} {items : List SetItem} (hk : IsEscape alnum cs (.cls k))
    (hrest : IsSetBody ds items) : IsSetBody ('\\' :: cs ++ ds) (.cls k :: items)
  | range {cs ds es : List Char} {first last : Char} {items : List SetItem} (hfirst : IsMember alnum cs first)
    (hlast : IsMember alnum ds last) (hle : first ≤ last) (hrest : IsSetBody es items) :
    IsSetBody (cs ++ '-' :: ds ++ es) (.range first last :: items)
  | char {cs ds : List Char} {c : Char} {items : List SetItem} (hc : IsMember alnum cs c)
    (hrest : IsSetBody ds items) (hdash : ∀ d es, ds ≠ '-' :: d :: es) :
    IsSetBody (cs ++ ds) (.char c :: items)

/-! ### Repetitions -/

/-- The value of a decimal digit. -/
def decimalDigit (c : Char) : Option Nat :=
  if c.isDigit then some (c.toNat - '0'.toNat) else none

/-- A number in decimal digits, of which there is at least one. -/
def IsCount (ds : List Char) (n : Nat) : Prop := ds ≠ [] ∧ IsNumeral 10 decimalDigit ds n

/-- The bounds of a repetition behind its opening brace. They are in order and not greater than
`maxRepeat`. -/
inductive IsBounds : List Char → Nat → Option Nat → Prop
  | exactly {ds : List Char} {n : Nat} (hn : IsCount ds n) (hle : n ≤ maxRepeat) :
    IsBounds (ds ++ ['}']) n (some n)
  | atLeast {ds : List Char} {n : Nat} (hn : IsCount ds n) (hle : n ≤ maxRepeat) :
    IsBounds (ds ++ [',', '}']) n none
  | between {ds es : List Char} {n m : Nat} (hn : IsCount ds n) (hm : IsCount es m) (hnm : n ≤ m)
    (hle : m ≤ maxRepeat) : IsBounds (ds ++ ',' :: es ++ ['}']) n (some m)

/-- The text is a run of suffixes that make `r` of the atom `a`. -/
inductive IsSuffixed : Regex → List Char → Regex → Prop
  | nil {r : Regex} : IsSuffixed r [] r
  | many {a r : Regex} {cs : List Char} (h : IsSuffixed (.many a) cs r) : IsSuffixed a ('*' :: cs) r
  | many1 {a r : Regex} {cs : List Char} (h : IsSuffixed (.many1 a) cs r) : IsSuffixed a ('+' :: cs) r
  | optional {a r : Regex} {cs : List Char} (h : IsSuffixed (.optional a) cs r) :
    IsSuffixed a ('?' :: cs) r
  | repeated {a r : Regex} {cs ds : List Char} {min : Nat} {max : Option Nat} (hbounds : IsBounds ds min max)
    (h : IsSuffixed (.repeated a min max) cs r) : IsSuffixed a ('{' :: ds ++ cs) r

/-! ### Patterns -/

/-- The characters that do not stand for themselves. -/
def reserved : List Char := ['(', ')', '[', '.', '|', '*', '+', '?', '{', '^', '$', '\\']

/-- A part of a pattern, with what it stands for. -/
inductive Part where
  | alternatives (rs : List Regex)
  | sequence (rs : List Regex)
  | item (r : Regex)
  | atom (r : Regex)

/-- The text is written for the part of a pattern. -/
inductive Written : Part → List Char → Prop
  | single {rs : List Regex} {cs : List Char} (h : Written (.sequence rs) cs) :
    Written (.alternatives [ofSequence rs]) cs
  | bar {rs alts : List Regex} {cs ds : List Char} (h : Written (.sequence rs) cs)
    (hrest : Written (.alternatives alts) ds) :
    Written (.alternatives (ofSequence rs :: alts)) (cs ++ '|' :: ds)
  | nil : Written (.sequence []) []
  | cons {r : Regex} {rs : List Regex} {cs ds : List Char} (h : Written (.item r) cs)
    (hrest : Written (.sequence rs) ds) : Written (.sequence (r :: rs)) (cs ++ ds)
  | suffixed {a r : Regex} {cs ds : List Char} (h : Written (.atom a) cs) (hsuffixes : IsSuffixed a ds r) :
    Written (.item r) (cs ++ ds)
  | group {rs : List Regex} {cs : List Char} (h : Written (.alternatives rs) cs) :
    Written (.atom (ofAlternatives rs)) ('(' :: cs ++ [')'])
  | markedGroup {rs : List Regex} {cs : List Char} (h : Written (.alternatives rs) cs) :
    Written (.atom (ofAlternatives rs)) ('(' :: '?' :: ':' :: cs ++ [')'])
  | set {cs : List Char} {items : List SetItem} (h : IsSetBody alnum cs items) (hitems : items ≠ [])
    (hcaret : ∀ ds, cs ≠ '^' :: ds) : Written (.atom (.set false items)) ('[' :: cs ++ [']'])
  | negatedSet {cs : List Char} {items : List SetItem} (h : IsSetBody alnum cs items)
    (hitems : items ≠ []) : Written (.atom (.set true items)) ('[' :: '^' :: cs ++ [']'])
  | any : Written (.atom .any) ['.']
  | escapedChar {cs : List Char} {c : Char} (h : IsEscape alnum cs (.char c)) :
    Written (.atom (.char c)) ('\\' :: cs)
  | escapedClass {cs : List Char} {k : CharClass} (h : IsEscape alnum cs (.cls k)) :
    Written (.atom (.cls k)) ('\\' :: cs)
  | plain {c : Char} (h : c ∉ reserved) : Written (.atom (.char c)) [c]

/-- The text is a pattern for the expression. -/
def IsWritten (text : List Char) (r : Regex) : Prop :=
  ∃ rs, Written alnum (.alternatives rs) text ∧ r = ofAlternatives rs

/-! ### What can be written -/

variable {alnum}

/-- Bounds and ranges are in order, no set is empty, and there are at least two alternatives or items
wherever they are several. -/
inductive InOrder : Regex → Prop
  | empty : InOrder .empty
  | any : InOrder .any
  | char (c : Char) : InOrder (.char c)
  | set {negated : Bool} {items : List SetItem} (hitems : items ≠ [])
    (hranges : ∀ first last, .range first last ∈ items → first ≤ last) : InOrder (.set negated items)
  | cls (k : CharClass) : InOrder (.cls k)
  | alt {rs : List Regex} (hlength : 2 ≤ rs.length) (h : ∀ r ∈ rs, InOrder r) : InOrder (.alt rs)
  | concat {rs : List Regex} (hlength : 2 ≤ rs.length) (h : ∀ r ∈ rs, InOrder r) : InOrder (.concat rs)
  | optional {r : Regex} (h : InOrder r) : InOrder (.optional r)
  | many {r : Regex} (h : InOrder r) : InOrder (.many r)
  | many1 {r : Regex} (h : InOrder r) : InOrder (.many1 r)
  | repeated {r : Regex} {min : Nat} {max : Option Nat} (hmin : min ≤ maxRepeat)
    (hmax : ∀ m ∈ max, min ≤ m ∧ m ≤ maxRepeat) (h : InOrder r) : InOrder (.repeated r min max)

theorem InOrder.ofAlternatives {rs : List Regex} (hne : rs ≠ []) (h : ∀ r ∈ rs, InOrder r) :
    InOrder (ofAlternatives rs) := by
  match rs, hne, h with
  | [r], _, h => exact h r (List.mem_singleton_self r)
  | r :: r' :: rs, _, h => exact .alt (by simp) h

theorem InOrder.ofSequence {rs : List Regex} (h : ∀ r ∈ rs, InOrder r) : InOrder (ofSequence rs) := by
  match rs, h with
  | [], _ => exact .empty
  | [r], h => exact h r (List.mem_singleton_self r)
  | r :: r' :: rs, h => exact .concat (by simp) h

theorem IsSetBody.le_of_range_mem {cs : List Char} {items : List SetItem} (h : IsSetBody alnum cs items)
    {first last : Char} (hmem : .range first last ∈ items) : first ≤ last := by
  induction h with
  | nil => exact absurd hmem List.not_mem_nil
  | cls _ _ ih => exact ih ((List.mem_cons.1 hmem).resolve_left (by simp))
  | range _ _ hle _ ih =>
    rcases List.mem_cons.1 hmem with heq | hmem
    · obtain ⟨rfl, rfl⟩ := SetItem.range.inj heq
      exact hle
    · exact ih hmem
  | char _ _ _ ih => exact ih ((List.mem_cons.1 hmem).resolve_left (by simp))

theorem IsBounds.inOrder {cs : List Char} {min : Nat} {max : Option Nat} (h : IsBounds cs min max) :
    min ≤ maxRepeat ∧ ∀ m ∈ max, min ≤ m ∧ m ≤ maxRepeat := by
  cases h with
  | exactly _ hle => exact ⟨hle, by simpa using hle⟩
  | atLeast _ hle => exact ⟨hle, by simp⟩
  | between _ _ hnm hle => exact ⟨Nat.le_trans hnm hle, by simpa using ⟨hnm, hle⟩⟩

theorem IsSuffixed.inOrder {a r : Regex} {cs : List Char} (h : IsSuffixed a cs r) (ha : InOrder a) :
    InOrder r := by
  induction h with
  | nil => exact ha
  | many _ ih => exact ih (.many ha)
  | many1 _ ih => exact ih (.many1 ha)
  | optional _ ih => exact ih (.optional ha)
  | repeated hbounds _ ih => exact ih (.repeated hbounds.inOrder.1 hbounds.inOrder.2 ha)

/-- What a part stands for is in order. -/
def Part.InOrder : Part → Prop
  | .alternatives rs => rs ≠ [] ∧ ∀ r ∈ rs, r.InOrder
  | .sequence rs => ∀ r ∈ rs, r.InOrder
  | .item r => r.InOrder
  | .atom r => r.InOrder

theorem Written.inOrder {part : Part} {cs : List Char} (h : Written alnum part cs) : part.InOrder := by
  induction h with
  | single _ ih => exact ⟨by simp, List.forall_mem_singleton.2 (.ofSequence ih)⟩
  | bar _ _ ih ihrest => exact ⟨by simp, List.forall_mem_cons.2 ⟨.ofSequence ih, ihrest.2⟩⟩
  | nil => exact fun r hr => absurd hr List.not_mem_nil
  | cons _ _ ih ihrest => exact List.forall_mem_cons.2 ⟨ih, ihrest⟩
  | suffixed _ hsuffixes ih => exact hsuffixes.inOrder ih
  | group _ ih => exact .ofAlternatives ih.1 ih.2
  | markedGroup _ ih => exact .ofAlternatives ih.1 ih.2
  | set h hitems _ => exact .set hitems fun _ _ hmem => h.le_of_range_mem hmem
  | negatedSet h hitems => exact .set hitems fun _ _ hmem => h.le_of_range_mem hmem
  | any => exact .any
  | escapedChar => exact .char _
  | escapedClass => exact .cls _
  | plain => exact .char _

/-- Everything that can be written is in order. -/
theorem IsWritten.inOrder {text : List Char} {r : Regex} (h : IsWritten alnum text r) : r.InOrder := by
  obtain ⟨rs, hrs, rfl⟩ := h
  exact .ofAlternatives hrs.inOrder.1 hrs.inOrder.2

end ShiftReduce.Regex
