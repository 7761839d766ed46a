import Mathlib.Data.Nat.Digits.Lemmas
import ShiftReduce.Proofs.Regex.Dialect

/-!
# Reading the parts of a pattern

The readers of escapes, of sets and of the bounds of repetitions take exactly what the grammar of patterns
says, and leave the rest. A number is read with a greatest value, and greater ones are told apart from the
numbers that are allowed (`Regex.boundsAllowed_min`).
-/

namespace ShiftReduce.Regex

open Text

/-- What is read in two steps is read if both steps read something. -/
theorem bind_eq_ok_iff {ε α β : Type} {x : Except ε α} {f : α → Except ε β} {b : β} :
    x >>= f = .ok b ↔ ∃ a, x = .ok a ∧ f a = .ok b := by
  cases x with
  | error e => exact iff_of_false nofun nofun
  | ok a =>
    constructor
    · exact fun h => ⟨a, rfl, h⟩
    · rintro ⟨a', ha, h⟩
      rwa [Except.ok.inj ha]

/-! ### Numerals -/

variable {base : Nat} {value : Char → Option Nat} {alnum : Char → Bool}

theorem isNumeral_nil {n : Nat} : IsNumeral base value [] n ↔ n = 0 := by
  simp [IsNumeral]

/-- The first digit of a numeral counts most. -/
theorem isNumeral_cons {d : Char} {ds : List Char} {n : Nat} : IsNumeral base value (d :: ds) n ↔
    ∃ v m, value d = some v ∧ IsNumeral base value ds m ∧ n = base ^ ds.length * v + m := by
  constructor
  · rintro ⟨values, hvalues, rfl⟩
    cases hvalues with
    | cons hd hds =>
      refine ⟨_, _, hd, ⟨_, hds, rfl⟩, ?_⟩
      rw [List.reverse_cons, Nat.ofDigits_append, Nat.ofDigits_singleton, List.length_reverse,
        ← hds.length_eq, Nat.add_comm]
  · rintro ⟨v, m, hv, ⟨values, hvalues, rfl⟩, rfl⟩
    refine ⟨v :: values, .cons hv hvalues, ?_⟩
    rw [List.reverse_cons, Nat.ofDigits_append, Nat.ofDigits_singleton, List.length_reverse,
      ← hvalues.length_eq, Nat.add_comm]

theorem IsNumeral.unique {ds : List Char} {n m : Nat} (h : IsNumeral base value ds n)
    (h' : IsNumeral base value ds m) : n = m := by
  induction ds generalizing n m with
  | nil => rw [isNumeral_nil.1 h, isNumeral_nil.1 h']
  | cons d ds ih =>
    obtain ⟨v, k, hv, hk, rfl⟩ := isNumeral_cons.1 h
    obtain ⟨v', k', hv', hk', rfl⟩ := isNumeral_cons.1 h'
    obtain rfl := Option.some.inj (hv.symm.trans hv')
    rw [ih hk hk']

/-! ### Escapes -/

theorem readHex_eq_some_iff {n acc code : Nat} {cs rest : List Char} :
    readHex n acc cs = some (code, rest) ↔ ∃ ds m, cs = ds ++ rest ∧ ds.length = n ∧
      IsNumeral 16 hexValue ds m ∧ code = 16 ^ n * acc + m := by
  induction n generalizing acc cs with
  | zero =>
    simp only [readHex, Option.some.injEq, Prod.mk.injEq, List.length_eq_zero_iff]
    constructor
    · rintro ⟨rfl, rfl⟩
      exact ⟨[], 0, rfl, rfl, isNumeral_nil.2 rfl, by omega⟩
    · rintro ⟨ds, m, rfl, rfl, hm, rfl⟩
      rw [isNumeral_nil.1 hm]
      exact ⟨by omega, rfl⟩
  | succ n ih =>
    cases cs with
    | nil =>
      refine iff_of_false (by simp [readHex]) ?_
      rintro ⟨ds, m, hnil, hlength, -⟩
      obtain ⟨rfl, -⟩ := List.append_eq_nil_iff.1 hnil.symm
      exact absurd hlength (by simp)
    | cons c cs =>
      rw [readHex, Option.bind_eq_some_iff]
      constructor
      · rintro ⟨v, hv, h⟩
        obtain ⟨ds, m, rfl, rfl, hm, rfl⟩ := ih.1 h
        refine ⟨c :: ds, _, rfl, rfl, isNumeral_cons.2 ⟨v, m, hv, hm, rfl⟩, ?_⟩
        rw [Nat.pow_succ]
        ring
      · rintro ⟨ds, m, hsplit, hlength, hm, rfl⟩
        cases ds with
        | nil => exact absurd hlength (by simp)
        | cons d ds =>
          obtain ⟨rfl, rfl⟩ := List.cons.inj hsplit
          obtain rfl : ds.length = n := Nat.succ.inj hlength
          obtain ⟨v, k, hv, hk, rfl⟩ := isNumeral_cons.1 hm
          refine ⟨v, hv, ih.2 ⟨ds, k, rfl, rfl, hk, ?_⟩⟩
          rw [Nat.pow_succ]
          ring

theorem readCodePoint_eq_ok_iff {start cs rest : List Char} {n : Nat} {e : Escaped} :
    readCodePoint start n cs = .ok (e, rest) ↔ ∃ ds code, cs = ds ++ rest ∧ ds.length = n ∧
      IsNumeral 16 hexValue ds code ∧ code.isValidChar ∧ e = .char (Char.ofNat code) := by
  rw [readCodePoint]
  cases hhex : readHex n 0 cs with
  | none =>
    refine iff_of_false (by simp) ?_
    rintro ⟨ds, code, hsplit, hlength, hcode, -⟩
    rw [readHex_eq_some_iff.2 ⟨ds, code, hsplit, hlength, hcode, rfl⟩] at hhex
    exact absurd hhex (by simp)
  | some result =>
    obtain ⟨code, rest'⟩ := result
    obtain ⟨ds, m, rfl, rfl, hm, rfl⟩ := readHex_eq_some_iff.1 hhex
    simp only [Nat.mul_zero, Nat.zero_add]
    constructor
    · intro h
      split at h
      · next hvalid =>
        obtain ⟨rfl, rfl⟩ := Prod.mk.inj (Except.ok.inj h)
        exact ⟨ds, m, rfl, rfl, hm, hvalid, rfl⟩
      · exact absurd h (by simp)
    · rintro ⟨ds', code, hsplit, hlength, hcode, hvalid, rfl⟩
      obtain ⟨rfl, rfl⟩ := List.append_inj hsplit hlength.symm
      rw [hm.unique hcode, if_pos hvalid]

theorem mem_escapes_iff {c : Char} {e : Escaped} : (c, e) ∈ escapes ↔ namedEscape c = some e := by
  unfold namedEscape
  split <;> simp_all [escapes, eq_comm]

/-- What names no escape is read as no named escape and announces no code point. -/
theorem not_mem_escapeNames_iff {c : Char} :
    c ∉ escapeNames ↔ namedEscape c = none ∧ c ≠ 'x' ∧ c ≠ 'u' := by
  have hnamed : c ∉ escapes.map Prod.fst ↔ namedEscape c = none := by
    simp only [Option.eq_none_iff_forall_ne_some, ← mem_escapes_iff, List.mem_map, Prod.exists,
      exists_and_right, exists_eq_right, not_exists, ne_eq]
  rw [escapeNames, List.mem_append, not_or, hnamed]
  simp [codePointMarks]

theorem readEscape_eq_ok_iff {start cs rest : List Char} {e : Escaped} :
    readEscape alnum start cs = .ok (e, rest) ↔ ∃ ds, cs = ds ++ rest ∧ IsEscape alnum ds e := by
  constructor
  · intro h
    cases cs with
    | nil => exact absurd h (by simp [readEscape])
    | cons c cs =>
      rw [readEscape] at h
      split at h
      · next e' hnamed =>
        obtain ⟨rfl, rfl⟩ := Prod.mk.inj (Except.ok.inj h)
        exact ⟨[c], rfl, .named (mem_escapes_iff.2 hnamed)⟩
      · split at h
        · next hmark =>
          obtain ⟨ds, code, rfl, hlength, hcode, hvalid, rfl⟩ := readCodePoint_eq_ok_iff.1 h
          exact ⟨c :: ds, rfl, .codePoint (by simp [codePointMarks, hmark, hlength]) hcode hvalid⟩
        · split at h
          · next hmark =>
            obtain ⟨ds, code, rfl, hlength, hcode, hvalid, rfl⟩ := readCodePoint_eq_ok_iff.1 h
            exact ⟨c :: ds, rfl, .codePoint (by simp [codePointMarks, hmark, hlength]) hcode hvalid⟩
          · split at h
            · exact absurd h (by simp)
            · next _ hnamed hx hu halnum =>
              obtain ⟨rfl, rfl⟩ := Prod.mk.inj (Except.ok.inj h)
              exact ⟨[c], rfl, .plain (Bool.not_eq_true _ ▸ halnum)
                (not_mem_escapeNames_iff.2 ⟨hnamed, hx, hu⟩)⟩
  · rintro ⟨ds, rfl, h⟩
    cases h with
    | named hnamed => rw [List.singleton_append, readEscape, mem_escapes_iff.1 hnamed]
    | @codePoint mark ds code hmark hcode hvalid =>
      simp only [codePointMarks, List.mem_cons, Prod.mk.injEq, List.not_mem_nil, or_false] at hmark
      rcases hmark with ⟨rfl, hlength⟩ | ⟨rfl, hlength⟩
      · exact readCodePoint_eq_ok_iff.2 ⟨ds, code, rfl, hlength, hcode, hvalid, rfl⟩
      · exact readCodePoint_eq_ok_iff.2 ⟨ds, code, rfl, hlength, hcode, hvalid, rfl⟩
    | plain halnum hname =>
      obtain ⟨hnamed, hx, hu⟩ := not_mem_escapeNames_iff.1 hname
      rw [List.singleton_append, readEscape, hnamed]
      simp only [if_neg hx, if_neg hu, halnum, Bool.false_eq_true, if_false]

/-! ### Sets -/

/-- A member begins with a character that does not close the set. -/
theorem IsMember.exists_cons {cs : List Char} {c : Char} (h : IsMember alnum cs c) :
    ∃ d ds, cs = d :: ds ∧ d ≠ ']' ∧
      ∀ rest, readMember alnum d (ds ++ rest) = .ok (.char c, rest) := by
  cases h with
  | plain hclose hescape => exact ⟨c, [], rfl, hclose, fun rest => if_neg hescape⟩
  | @escaped cs _ h =>
    refine ⟨'\\', cs, rfl, by decide, fun rest => ?_⟩
    rw [readMember, if_pos rfl]
    exact readEscape_eq_ok_iff.2 ⟨cs, rfl, h⟩

/-- What is read as a member is one character or an escape. -/
theorem exists_of_readMember {c : Char} {cs rest : List Char} {e : Escaped} (hc : c ≠ ']')
    (h : readMember alnum c cs = .ok (e, rest)) : ∃ ds, c :: cs = ds ++ rest ∧
      ((∃ d, e = .char d ∧ IsMember alnum ds d) ∨
        ∃ k es, e = .cls k ∧ ds = '\\' :: es ∧ IsEscape alnum es (.cls k)) := by
  rw [readMember] at h
  split at h
  · next hescape =>
    obtain ⟨ds, rfl, hds⟩ := readEscape_eq_ok_iff.1 h
    refine ⟨c :: ds, rfl, ?_⟩
    rw [hescape]
    cases e with
    | char d => exact Or.inl ⟨d, rfl, .escaped hds⟩
    | cls k => exact Or.inr ⟨k, ds, rfl, rfl, hds⟩
  · next hescape =>
    obtain ⟨rfl, rfl⟩ := Prod.mk.inj (Except.ok.inj h)
    exact ⟨[c], rfl, Or.inl ⟨c, rfl, .plain hc hescape⟩⟩

theorem readUpper_eq_ok_iff {start cs rest : List Char} {lower c : Char} {item : SetItem} (hc : c ≠ ']') :
    readUpper alnum start lower c cs = .ok (item, rest) ↔ ∃ ds upper, c :: cs = ds ++ rest ∧
      IsMember alnum ds upper ∧ lower ≤ upper ∧ item = .range lower upper := by
  rw [readUpper, bind_eq_ok_iff]
  constructor
  · rintro ⟨⟨e, after⟩, hmember, h⟩
    obtain ⟨ds, hsplit, ⟨d, rfl, hd⟩ | ⟨k, es, rfl, -⟩⟩ := exists_of_readMember hc hmember
    · simp only at h
      split at h
      · exact absurd h (by simp)
      · next hle =>
        obtain ⟨rfl, rfl⟩ := Prod.mk.inj (Except.ok.inj h)
        exact ⟨ds, d, hsplit, hd, Char.not_lt.1 hle, rfl⟩
    · exact absurd h (by simp)
  · rintro ⟨ds, upper, hsplit, hupper, hle, rfl⟩
    obtain ⟨d, ds, rfl, -, hread⟩ := hupper.exists_cons
    rw [List.cons_append] at hsplit
    obtain ⟨rfl, rfl⟩ := List.cons.inj hsplit
    exact ⟨_, hread rest, if_neg (Char.not_lt.2 hle)⟩

/-- The items of a set do not begin with a closing bracket. -/
theorem IsSetBody.head_ne {c : Char} {cs : List Char} {items : List SetItem}
    (h : IsSetBody alnum (c :: cs) items) : c ≠ ']' := by
  generalize htext : c :: cs = text at h
  cases h with
  | nil => exact absurd htext (by simp)
  | cls =>
    rw [(List.cons.inj htext).1]
    decide
  | range hfirst =>
    obtain ⟨d, ds, rfl, hd, -⟩ := hfirst.exists_cons
    rwa [(List.cons.inj htext).1]
  | char hc =>
    obtain ⟨d, ds, rfl, hd, -⟩ := hc.exists_cons
    rwa [(List.cons.inj htext).1]

/-- Nor does what comes behind a dash. -/
theorem IsSetBody.head_ne_of_dash {c : Char} {cs : List Char} {items : List SetItem}
    (h : IsSetBody alnum ('-' :: c :: cs) items) : c ≠ ']' := by
  have hmember : ∀ {ds es d}, IsMember alnum ds d → '-' :: c :: cs = ds ++ es → es = c :: cs := by
    intro ds es d hd htext
    cases hd with
    | plain => exact (List.cons.inj htext).2.symm
    | escaped => exact absurd (List.cons.inj htext).1 (by decide)
  generalize htext : '-' :: c :: cs = text at h
  cases h with
  | nil => exact absurd htext (by simp)
  | cls => exact absurd (List.cons.inj htext).1 (by decide)
  | range hfirst =>
    rw [List.append_assoc] at htext
    rw [← (List.cons.inj (hmember hfirst htext)).1]
    decide
  | char hc hrest =>
    rw [hmember hc htext] at hrest
    exact hrest.head_ne

/-- One item and what is left behind it: a dash behind a character is not left unless the set ends. -/
theorem exists_of_readSetItem {c : Char} {cs rest : List Char} {item : SetItem} (hc : c ≠ ']')
    (h : readSetItem alnum c cs = .ok (item, rest)) :
    (∃ k ds, item = .cls k ∧ c :: cs = '\\' :: ds ++ rest ∧ IsEscape alnum ds (.cls k)) ∨
    (∃ ds es first last, item = .range first last ∧ c :: cs = ds ++ '-' :: es ++ rest ∧
      IsMember alnum ds first ∧ IsMember alnum es last ∧ first ≤ last) ∨
    ∃ ds d, item = .char d ∧ c :: cs = ds ++ rest ∧ IsMember alnum ds d ∧
      ∀ d' es, rest = '-' :: d' :: es → d' = ']' := by
  rw [readSetItem, bind_eq_ok_iff] at h
  obtain ⟨⟨e, after⟩, hmember, h⟩ := h
  obtain ⟨ds, hsplit, ⟨d, rfl, hd⟩ | ⟨k, es, rfl, rfl, hk⟩⟩ := exists_of_readMember hc hmember
  · right
    simp only at h
    split at h
    · next d' more =>
      split at h
      · next hclose =>
        obtain ⟨rfl, rfl⟩ := Prod.mk.inj (Except.ok.inj h)
        refine Or.inr ⟨ds, d, rfl, hsplit, hd, fun d'' es heq => ?_⟩
        obtain ⟨rfl, -⟩ := List.cons.inj (List.cons.inj heq).2
        exact hclose
      · next hclose =>
        obtain ⟨es, last, hmore, hlast, hle, rfl⟩ := (readUpper_eq_ok_iff hclose).1 h
        refine Or.inl ⟨ds, es, d, last, rfl, ?_, hd, hlast, hle⟩
        rw [hsplit, hmore, List.append_assoc, List.cons_append]
    · next hdash =>
      obtain ⟨rfl, rfl⟩ := Prod.mk.inj (Except.ok.inj h)
      exact Or.inr ⟨ds, d, rfl, hsplit, hd, fun d' es heq => absurd heq (hdash d' es)⟩
  · obtain ⟨rfl, rfl⟩ := Prod.mk.inj (Except.ok.inj h)
    exact Or.inl ⟨k, es, rfl, hsplit, hk⟩

/-- The reader of the items of a set takes the items up to the closing bracket. -/
theorem isSetBody_of_readSetItems {start cs rest : List Char} {fuel : Nat} {isFirst : Bool}
    {items : List SetItem} (h : readSetItems alnum start fuel isFirst cs = .ok (items, rest)) :
    ∃ body, cs = body ++ ']' :: rest ∧ IsSetBody alnum body items ∧ (isFirst = true → items ≠ []) := by
  induction fuel generalizing isFirst cs items with
  | zero => exact absurd h (by simp [readSetItems])
  | succ fuel ih =>
    cases cs with
    | nil => exact absurd h (by simp [readSetItems])
    | cons c cs =>
      rw [readSetItems] at h
      by_cases hc : c = ']'
      · rw [if_pos hc] at h
        split at h
        · exact absurd h (by simp)
        · next hfirst =>
          obtain ⟨rfl, rfl⟩ := Prod.mk.inj (Except.ok.inj h)
          exact ⟨[], by rw [hc, List.nil_append], .nil, fun htrue => absurd htrue hfirst⟩
      rw [if_neg hc, bind_eq_ok_iff] at h
      obtain ⟨⟨item, after⟩, hitem, h⟩ := h
      obtain ⟨⟨items', rest'⟩, hitems, h⟩ := bind_eq_ok_iff.1 h
      obtain ⟨rfl, rfl⟩ := Prod.mk.inj (Except.ok.inj h)
      obtain ⟨body, rfl, hbody, -⟩ := ih hitems
      rcases exists_of_readSetItem hc hitem with ⟨k, ds, rfl, hsplit, hk⟩ |
        ⟨ds, es, first, last, rfl, hsplit, hfirst, hlast, hle⟩ | ⟨ds, d, rfl, hsplit, hd, hdash⟩
      · exact ⟨_, by rw [hsplit, List.append_assoc], .cls hk hbody, fun _ => by simp⟩
      · exact ⟨_, by rw [hsplit, List.append_assoc _ body], .range hfirst hlast hle hbody,
          fun _ => by simp⟩
      · refine ⟨_, by rw [hsplit, List.append_assoc], .char hd hbody ?_, fun _ => by simp⟩
        rintro d' es rfl
        exact hbody.head_ne_of_dash (hdash d' _ rfl)

/-- One item more is read before the others. -/
theorem readSetItems_cons {start cs after rest : List Char} {c : Char} {fuel : Nat} {isFirst : Bool}
    {item : SetItem} {items : List SetItem} (hc : c ≠ ']')
    (hitem : readSetItem alnum c cs = .ok (item, after))
    (hitems : readSetItems alnum start fuel false after = .ok (items, rest)) :
    readSetItems alnum start (fuel + 1) isFirst (c :: cs) = .ok (item :: items, rest) := by
  rw [readSetItems, if_neg hc]
  exact bind_eq_ok_iff.2 ⟨_, hitem, bind_eq_ok_iff.2 ⟨_, hitems, rfl⟩⟩

/-- The items of a set are read up to the closing bracket. -/
theorem IsSetBody.readSetItems_eq {body : List Char} {items : List SetItem} (h : IsSetBody alnum body items)
    {start rest : List Char} {fuel : Nat} {isFirst : Bool} (hfuel : body.length < fuel)
    (hfirst : isFirst = true → items ≠ []) :
    readSetItems alnum start fuel isFirst (body ++ ']' :: rest) = .ok (items, rest) := by
  obtain ⟨fuel, rfl⟩ := Nat.exists_eq_succ_of_ne_zero (Nat.ne_of_gt (Nat.zero_lt_of_lt hfuel))
  induction h generalizing fuel isFirst with
  | nil =>
    have hfalse : isFirst = false := Bool.not_eq_true _ ▸ fun htrue => hfirst htrue rfl
    rw [List.nil_append, readSetItems, if_pos rfl, hfalse]
    rfl
  | @cls cs ds k items hk hrest ih =>
    have hitem : readSetItem alnum '\\' (cs ++ (ds ++ ']' :: rest)) = .ok (.cls k, ds ++ ']' :: rest) := by
      rw [readSetItem, readMember, if_pos rfl, readEscape_eq_ok_iff.2 ⟨cs, rfl, hk⟩]
      rfl
    simp only [List.length_append, List.length_cons] at hfuel
    obtain ⟨fuel, rfl⟩ : ∃ k, fuel = k + 1 := ⟨fuel - 1, by omega⟩
    rw [List.append_assoc, List.cons_append]
    exact readSetItems_cons (by decide) hitem (ih (by simp) fuel (by omega))
  | @range cs ds es first last items hfirst' hlast hle hrest ih =>
    obtain ⟨c, cs, rfl, hc, hread⟩ := hfirst'.exists_cons
    obtain ⟨d, ds, rfl, hd, -⟩ := hlast.exists_cons
    have hitem : readSetItem alnum c (cs ++ '-' :: d :: (ds ++ (es ++ ']' :: rest))) =
        .ok (.range first last, es ++ ']' :: rest) := by
      rw [readSetItem, hread]
      simp only [bind, Except.bind, if_neg hd]
      exact (readUpper_eq_ok_iff hd).2 ⟨d :: ds, last, rfl, hlast, hle, rfl⟩
    simp only [List.length_append, List.length_cons] at hfuel
    obtain ⟨fuel, rfl⟩ : ∃ k, fuel = k + 1 := ⟨fuel - 1, by omega⟩
    simp only [List.append_assoc, List.cons_append]
    exact readSetItems_cons hc hitem (ih (by simp) fuel (by omega))
  | @char cs ds c items hc hrest hdash ih =>
    obtain ⟨d, cs, rfl, hd, hread⟩ := hc.exists_cons
    have hitem : readSetItem alnum d (cs ++ (ds ++ ']' :: rest)) = .ok (.char c, ds ++ ']' :: rest) := by
      rw [readSetItem, hread]
      simp only [bind, Except.bind]
      split
      · next d' more heq =>
        -- nothing is left behind the dash, so it is the bracket that follows
        cases ds with
        | nil => exact absurd (List.cons.inj heq).1 (by decide)
        | cons e es =>
          obtain ⟨rfl, htail⟩ := List.cons.inj heq
          cases es with
          | nil =>
            obtain ⟨rfl, rfl⟩ := List.cons.inj htail
            exact if_pos rfl
          | cons e es => exact absurd rfl (hdash e es)
      · rfl
    simp only [List.length_append, List.length_cons] at hfuel
    obtain ⟨fuel, rfl⟩ : ∃ k, fuel = k + 1 := ⟨fuel - 1, by omega⟩
    rw [List.append_assoc, List.cons_append]
    exact readSetItems_cons hd hitem (ih (by simp) fuel (by omega))

theorem readSetItems_eq_ok_iff {start cs rest : List Char} {items : List SetItem} :
    readSetItems alnum start (cs.length + 1) true cs = .ok (items, rest) ↔
      ∃ body, cs = body ++ ']' :: rest ∧ IsSetBody alnum body items ∧ items ≠ [] := by
  constructor
  · intro h
    obtain ⟨body, hbody, hitems, hne⟩ := isSetBody_of_readSetItems h
    exact ⟨body, hbody, hitems, hne rfl⟩
  · rintro ⟨body, rfl, hitems, hne⟩
    refine hitems.readSetItems_eq ?_ fun _ => hne
    rw [List.length_append]
    omega

/-- A set is read up to its closing bracket, and a caret at its beginning negates it. -/
theorem readSet_eq_ok_iff {start cs rest : List Char} {r : Regex} : readSet alnum start cs = .ok (r, rest) ↔
    ∃ body items, IsSetBody alnum body items ∧ items ≠ [] ∧
      (cs = '^' :: body ++ ']' :: rest ∧ r = .set true items ∨
        cs = body ++ ']' :: rest ∧ r = .set false items ∧ ∀ ds, body ≠ '^' :: ds) := by
  rw [readSet, bind_eq_ok_iff]
  by_cases hcaret : cs.head? = some '^'
  · obtain ⟨cs, rfl⟩ := List.head?_eq_some_iff.1 hcaret
    simp only [List.head?_cons, beq_self_eq_true, if_true, List.drop_one, List.tail_cons]
    constructor
    · rintro ⟨⟨items, rest'⟩, hread, h⟩
      obtain ⟨rfl, rfl⟩ := Prod.mk.inj (Except.ok.inj h)
      obtain ⟨body, rfl, hbody, hne⟩ := readSetItems_eq_ok_iff.1 hread
      exact ⟨body, items, hbody, hne, Or.inl ⟨rfl, rfl⟩⟩
    · rintro ⟨body, items, hbody, hne, ⟨htext, rfl⟩ | ⟨htext, rfl, hne'⟩⟩
      · exact ⟨_, readSetItems_eq_ok_iff.2 ⟨body, (List.cons.inj htext).2, hbody, hne⟩, rfl⟩
      · cases body with
        | nil => exact absurd (List.cons.inj htext).1 (by decide)
        | cons c body => exact absurd (congrArg (· :: body) (List.cons.inj htext).1.symm) (hne' body)
  · have hnegated : (cs.head? == some '^') = false := beq_eq_false_iff_ne.2 hcaret
    simp only [hnegated, Bool.false_eq_true, if_false]
    constructor
    · rintro ⟨⟨items, rest'⟩, hread, h⟩
      obtain ⟨rfl, rfl⟩ := Prod.mk.inj (Except.ok.inj h)
      obtain ⟨body, rfl, hbody, hne⟩ := readSetItems_eq_ok_iff.1 hread
      refine ⟨body, items, hbody, hne, Or.inr ⟨rfl, rfl, ?_⟩⟩
      rintro ds rfl
      exact hcaret rfl
    · rintro ⟨body, items, hbody, hne, ⟨rfl, rfl⟩ | ⟨rfl, rfl, -⟩⟩
      · exact absurd rfl hcaret
      · exact ⟨_, readSetItems_eq_ok_iff.2 ⟨body, rfl, hbody, hne⟩, rfl⟩

/-! ### Counts -/

theorem decimalDigit_eq_some_iff {c : Char} {v : Nat} :
    decimalDigit c = some v ↔ c.isDigit = true ∧ v = c.toNat - '0'.toNat := by
  rw [decimalDigit]
  split
  · next hdigit => simp [hdigit, eq_comm]
  · next hdigit => simp [hdigit]

/-- A run of digits writes a number. -/
theorem exists_isNumeral {ds : List Char} (h : ∀ d ∈ ds, d.isDigit = true) :
    ∃ n, IsNumeral 10 decimalDigit ds n := by
  induction ds with
  | nil => exact ⟨0, isNumeral_nil.2 rfl⟩
  | cons d ds ih =>
    obtain ⟨hd, hds⟩ := List.forall_mem_cons.1 h
    obtain ⟨m, hm⟩ := ih hds
    exact ⟨_, isNumeral_cons.2 ⟨_, m, decimalDigit_eq_some_iff.2 ⟨hd, rfl⟩, hm, rfl⟩⟩

theorem IsNumeral.isDigit {ds : List Char} {n : Nat} (h : IsNumeral 10 decimalDigit ds n) :
    ∀ d ∈ ds, d.isDigit = true := by
  induction ds generalizing n with
  | nil => exact fun d hd => absurd hd List.not_mem_nil
  | cons d ds ih =>
    obtain ⟨v, m, hv, hm, -⟩ := isNumeral_cons.1 h
    exact List.forall_mem_cons.2 ⟨(decimalDigit_eq_some_iff.1 hv).1, ih hm⟩

/-- A numeral is read with the greatest count as an upper limit. -/
theorem IsNumeral.foldl_eq {ds : List Char} {n : Nat} (h : IsNumeral 10 decimalDigit ds n) (a : Nat) :
    ds.foldl (fun n c => min maxCount (min maxCount (n * 10) + (c.toNat - '0'.toNat))) (min maxCount a) =
      min maxCount (10 ^ ds.length * a + n) := by
  induction ds generalizing n a with
  | nil =>
    rw [isNumeral_nil.1 h]
    simp
  | cons d ds ih =>
    obtain ⟨v, m, hv, hm, rfl⟩ := isNumeral_cons.1 h
    obtain ⟨-, rfl⟩ := decimalDigit_eq_some_iff.1 hv
    have hstep : min maxCount (min maxCount (min maxCount a * 10) + (d.toNat - '0'.toNat)) =
        min maxCount (a * 10 + (d.toNat - '0'.toNat)) := by omega
    rw [List.foldl_cons, hstep, ih hm, List.length_cons, Nat.pow_succ]
    congr 1
    ring

theorem IsNumeral.decimalValue_eq {ds : List Char} {n : Nat} (h : IsNumeral 10 decimalDigit ds n) :
    decimalValue ds = min maxCount n := by
  have := h.foldl_eq 0
  simpa [decimalValue] using this

/-- Numbers beyond the greatest one that is told apart are not allowed, nor is the greatest one. -/
theorem boundsAllowed_min {n : Nat} {max : Option Nat} :
    boundsAllowed (min maxCount n) (max.map (min maxCount)) = true ↔
      n ≤ maxRepeat ∧ ∀ m ∈ max, n ≤ m ∧ m ≤ maxRepeat := by
  have hlt : maxRepeat < maxCount := by decide
  cases max with
  | none =>
    simp only [Option.map_none, boundsAllowed, decide_eq_true_eq]
    constructor
    · intro h
      exact ⟨by omega, by simp⟩
    · rintro ⟨h, -⟩
      omega
  | some m =>
    simp only [Option.map_some, boundsAllowed, Bool.and_eq_true, decide_eq_true_eq, Option.mem_def,
      Option.some.injEq, forall_eq']
    omega

/-- A number is read up to the first character that is no digit. -/
theorem readNumber_eq_some_iff {cs rest : List Char} {n : Nat} : readNumber cs = (some n, rest) ↔
    ∃ ds m, cs = ds ++ rest ∧ IsCount ds m ∧ n = min maxCount m ∧ ∀ c ∈ rest.head?, c.isDigit = false := by
  constructor
  · intro h
    rw [readNumber] at h
    split at h
    · exact absurd h (by simp)
    · next hne =>
      obtain ⟨hn, rfl⟩ := Prod.mk.inj h
      obtain ⟨m, hm⟩ := exists_isNumeral (List.all_eq_true.1 List.all_takeWhile)
      refine ⟨_, m, List.takeWhile_append_dropWhile.symm, ⟨hne, hm⟩, ?_, fun c hc => ?_⟩
      · rw [← hm.decimalValue_eq]
        exact (Option.some.inj hn).symm
      · have hhead := List.head?_dropWhile_not Char.isDigit cs
        rwa [Option.mem_def.1 hc] at hhead
  · rintro ⟨ds, m, rfl, ⟨hne, hm⟩, rfl, hrest⟩
    have hstop : rest.takeWhile Char.isDigit = [] ∧ rest.dropWhile Char.isDigit = rest := by
      cases rest with
      | nil => exact ⟨rfl, rfl⟩
      | cons c rest =>
        have hc : ¬ c.isDigit = true := Bool.not_eq_true _ ▸ hrest c rfl
        exact ⟨List.takeWhile_cons_of_neg hc, List.dropWhile_cons_of_neg hc⟩
    rw [readNumber, List.takeWhile_append_of_pos hm.isDigit, List.dropWhile_append_of_pos hm.isDigit,
      hstop.1, hstop.2, List.append_nil, ← hm.decimalValue_eq]
    cases ds with
    | nil => exact absurd rfl hne
    | cons d ds => rfl

theorem IsCount.readNumber_eq {ds rest : List Char} {c : Char} {n : Nat} (h : IsCount ds n)
    (hle : n ≤ maxRepeat) (hc : c.isDigit = false) :
    readNumber (ds ++ c :: rest) = (some n, c :: rest) := by
  have hlt : maxRepeat < maxCount := by decide
  exact readNumber_eq_some_iff.2 ⟨ds, n, rfl, h, by omega, by simpa using hc⟩

/-- Bounds that are allowed are the numbers that are written. -/
theorem eq_of_boundsAllowed {k n : Nat} {max' max : Option Nat} {after rest : List Char}
    (h : (if boundsAllowed (min maxCount k) (max'.map (min maxCount)) then
        some ((min maxCount k, max'.map (min maxCount)), after) else none) = some ((n, max), rest)) :
    n = k ∧ max = max' ∧ rest = after ∧ k ≤ maxRepeat ∧ ∀ m ∈ max', k ≤ m ∧ m ≤ maxRepeat := by
  have hlt : maxRepeat < maxCount := by decide
  obtain ⟨hallowed, heq⟩ := Option.ite_none_right_eq_some.1 h
  obtain ⟨hk, hmax⟩ := boundsAllowed_min.1 hallowed
  have hmap : max'.map (min maxCount) = max' := by
    cases max' with
    | none => rfl
    | some m => exact congrArg some (Nat.min_eq_right (by have := hmax m rfl; omega))
  rw [hmap, Nat.min_eq_right (by omega)] at heq
  cases heq
  exact ⟨rfl, rfl, rfl, hk, hmax⟩

/-- The bounds that are read are written behind the brace. -/
theorem exists_of_readBounds {cs rest : List Char} {n : Nat} {max : Option Nat}
    (h : readBounds cs = some ((n, max), rest)) : ∃ ds, cs = ds ++ rest ∧ IsBounds ds n max := by
  rw [readBounds] at h
  split at h
  · exact absurd h (by simp)
  next hnumber =>
  obtain ⟨ds, k, rfl, hk, rfl, -⟩ := readNumber_eq_some_iff.1 hnumber
  split at h
  next hbounds =>
  split at h
  case h_2 => exact absurd h (by simp)
  split at hbounds
  · cases hbounds
    obtain ⟨rfl, rfl, rfl, hle, -⟩ := @eq_of_boundsAllowed k n none _ _ _ h
    exact ⟨_, by simp, .atLeast hk hle⟩
  · split at hbounds
    · cases hbounds
    · next hnumber' =>
      cases hbounds
      obtain ⟨es, m, rfl, hm, rfl, -⟩ := readNumber_eq_some_iff.1 hnumber'
      obtain ⟨rfl, rfl, rfl, -, hle⟩ := @eq_of_boundsAllowed k n (some m) _ _ _ h
      exact ⟨_, by simp, .between hk hm (hle m rfl).1 (hle m rfl).2⟩
  · cases hbounds
    obtain ⟨rfl, rfl, rfl, hle, -⟩ := @eq_of_boundsAllowed k n (some k) _ _ _ h
    exact ⟨_, by simp, .exactly hk hle⟩

theorem IsBounds.readBounds_eq {ds rest : List Char} {n : Nat} {max : Option Nat}
    (h : IsBounds ds n max) : readBounds (ds ++ rest) = some ((n, max), rest) := by
  rw [readBounds]
  cases h with
  | @exactly ds n hn hle =>
    have hallowed : boundsAllowed n (some n) = true := by simpa [boundsAllowed] using hle
    rw [List.append_assoc, List.singleton_append, hn.readNumber_eq hle (by decide)]
    exact if_pos hallowed
  | @atLeast ds n hn hle =>
    have hallowed : boundsAllowed n none = true := by simpa [boundsAllowed] using hle
    rw [List.append_assoc, List.cons_append, hn.readNumber_eq hle (by decide)]
    exact if_pos hallowed
  | @between ds es n m hn hm hnm hle =>
    have hallowed : boundsAllowed n (some m) = true := by simpa [boundsAllowed] using ⟨hnm, hle⟩
    have hread : readNumber (es ++ '}' :: rest) = (some m, '}' :: rest) :=
      hm.readNumber_eq hle (by decide)
    -- the second number begins with a digit and not with the closing brace
    have hdigit : ∀ tail, es ++ '}' :: rest ≠ '}' :: tail := by
      cases es with
      | nil => exact absurd rfl hm.1
      | cons e es =>
        rintro tail heq
        obtain ⟨rfl, -⟩ := List.cons.inj heq
        exact absurd (hm.2.isDigit _ List.mem_cons_self) (by decide)
    rw [List.append_assoc, List.append_assoc, List.cons_append, List.singleton_append,
      hn.readNumber_eq (hnm.trans hle) (by decide)]
    simp only [hread, hallowed, if_true]

theorem readBounds_eq_some_iff {cs rest : List Char} {n : Nat} {max : Option Nat} :
    readBounds cs = some ((n, max), rest) ↔ ∃ ds, cs = ds ++ rest ∧ IsBounds ds n max := by
  constructor
  · exact exists_of_readBounds
  · rintro ⟨ds, rfl, h⟩
    exact h.readBounds_eq

/-! ### Suffixes -/

/-- The characters that suffixes begin with. -/
def suffixMarks : List Char := ['*', '+', '?', '{']

theorem isSuffixed_of_readSuffixes {fuel : Nat} {a r : Regex} {cs rest : List Char}
    (h : readSuffixes fuel a cs = .ok (r, rest)) : ∃ ds, cs = ds ++ rest ∧ IsSuffixed a ds r := by
  induction fuel generalizing a cs with
  | zero =>
    obtain ⟨rfl, rfl⟩ := Prod.mk.inj (Except.ok.inj h)
    exact ⟨[], rfl, .nil⟩
  | succ fuel ih =>
    cases cs with
    | nil =>
      obtain ⟨rfl, rfl⟩ := Prod.mk.inj (Except.ok.inj h)
      exact ⟨[], rfl, .nil⟩
    | cons c cs =>
      rw [readSuffixes] at h
      split_ifs at h with hmany hmany1 hoptional hrepeated
      · obtain ⟨ds, rfl, hds⟩ := ih h
        exact ⟨c :: ds, rfl, hmany ▸ .many hds⟩
      · obtain ⟨ds, rfl, hds⟩ := ih h
        exact ⟨c :: ds, rfl, hmany1 ▸ .many1 hds⟩
      · obtain ⟨ds, rfl, hds⟩ := ih h
        exact ⟨c :: ds, rfl, hoptional ▸ .optional hds⟩
      · split at h
        · next hread =>
          obtain ⟨bounds, rfl, hbounds⟩ := readBounds_eq_some_iff.1 hread
          obtain ⟨ds, rfl, hds⟩ := ih h
          exact ⟨c :: bounds ++ ds, by simp, hrepeated ▸ .repeated hbounds hds⟩
        · exact absurd h (by simp)
      · obtain ⟨rfl, rfl⟩ := Prod.mk.inj (Except.ok.inj h)
        exact ⟨[], rfl, .nil⟩

/-- Suffixes are read as long as there are any. -/
theorem IsSuffixed.readSuffixes_eq {a r : Regex} {ds : List Char} (h : IsSuffixed a ds r)
    {rest : List Char} {fuel : Nat} (hrest : ∀ c ∈ rest.head?, c ∉ suffixMarks)
    (hfuel : ds.length ≤ fuel) : readSuffixes fuel a (ds ++ rest) = .ok (r, rest) := by
  induction h generalizing fuel with
  | nil =>
    cases fuel with
    | zero => rfl
    | succ fuel =>
      cases rest with
      | nil => rfl
      | cons c rest =>
        have hc := hrest c rfl
        simp only [suffixMarks, List.mem_cons, List.not_mem_nil, not_or, or_false] at hc
        rw [List.nil_append, readSuffixes, if_neg hc.1, if_neg hc.2.1, if_neg hc.2.2.1, if_neg hc.2.2.2]
  | many _ ih =>
    match fuel, hfuel with
    | fuel + 1, hfuel => exact ih (Nat.le_of_succ_le_succ hfuel)
  | many1 _ ih =>
    match fuel, hfuel with
    | fuel + 1, hfuel => exact ih (Nat.le_of_succ_le_succ hfuel)
  | optional _ ih =>
    match fuel, hfuel with
    | fuel + 1, hfuel => exact ih (Nat.le_of_succ_le_succ hfuel)
  | @repeated a r cs bounds min max hbounds _ ih =>
    rw [List.length_append, List.length_cons] at hfuel
    obtain ⟨fuel, rfl⟩ : ∃ k, fuel = k + 1 := ⟨fuel - 1, by omega⟩
    rw [List.append_assoc, List.cons_append, readSuffixes, if_neg (by decide), if_neg (by decide),
      if_neg (by decide), if_pos rfl, hbounds.readBounds_eq]
    exact ih (by omega)

end ShiftReduce.Regex
