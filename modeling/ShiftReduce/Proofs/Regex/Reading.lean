import ShiftReduce.Proofs.Regex.Parts

/-!
# Reading what is written

The readers of patterns take what the grammar of patterns says, and nothing else. One direction goes along
the readers: what is read has been written (`Regex.written_of_readAlternatives`). The other goes along the
grammar: what is written is read (`Regex.Written.isRead`), if the fuel is at least twice the length of the
text and nothing follows that would belong to the part as well.

Both meet in `Regex.readPattern_eq_ok_iff`. The grammar is unambiguous, then, since a text is read in one way
(`Regex.IsWritten.unique`).
-/

namespace ShiftReduce.Regex

open Text

variable {alnum : Char → Bool}

/-! ### What is read -/

theorem eq_of_skipGroupMark {cs inner : List Char} (h : skipGroupMark cs = .ok inner) :
    cs = '?' :: ':' :: inner ∨ cs = inner := by
  unfold skipGroupMark at h
  split at h
  · exact Or.inl (by rw [Except.ok.inj h])
  · exact absurd h (by simp)
  · exact Or.inr (Except.ok.inj h)

mutual

/-- What is taken off the front of a text as alternatives has been written as alternatives. -/
theorem written_of_readAlternatives {fuel : Nat} {cs rest : List Char} {rs : List Regex}
    (h : readAlternatives alnum fuel cs = .ok (rs, rest)) :
    ∃ text, cs = text ++ rest ∧ Written alnum (.alternatives rs) text := by
  match fuel with
  | 0 => exact absurd h (by simp [readAlternatives])
  | fuel + 1 =>
    rw [readAlternatives, bind_eq_ok_iff] at h
    obtain ⟨⟨items, after⟩, hitems, h⟩ := h
    obtain ⟨text, rfl, htext⟩ := written_of_readSequence hitems
    simp only at h
    split at h
    · obtain ⟨⟨more, rest'⟩, hmore, h⟩ := bind_eq_ok_iff.1 h
      obtain ⟨rfl, rfl⟩ := Prod.mk.inj (Except.ok.inj h)
      obtain ⟨texts, rfl, htexts⟩ := written_of_readAlternatives hmore
      exact ⟨text ++ '|' :: texts, by simp, .bar htext htexts⟩
    · obtain ⟨rfl, rfl⟩ := Prod.mk.inj (Except.ok.inj h)
      exact ⟨text, rfl, .single htext⟩

theorem written_of_readSequence {fuel : Nat} {cs rest : List Char} {rs : List Regex}
    (h : readSequence alnum fuel cs = .ok (rs, rest)) :
    ∃ text, cs = text ++ rest ∧ Written alnum (.sequence rs) text := by
  match fuel, cs with
  | 0, _ => exact absurd h (by simp [readSequence])
  | fuel + 1, [] =>
    obtain ⟨rfl, rfl⟩ := Prod.mk.inj (Except.ok.inj h)
    exact ⟨[], rfl, .nil⟩
  | fuel + 1, c :: cs =>
    rw [readSequence] at h
    split at h
    · obtain ⟨rfl, rfl⟩ := Prod.mk.inj (Except.ok.inj h)
      exact ⟨[], rfl, .nil⟩
    · next hend =>
      simp only [bind_eq_ok_iff] at h
      obtain ⟨⟨atom, after⟩, hatom, ⟨item, after'⟩, hitem, ⟨items, rest'⟩, hitems, h⟩ := h
      obtain ⟨rfl, rfl⟩ := Prod.mk.inj (Except.ok.inj h)
      obtain ⟨text, htext, hwritten⟩ := written_of_readAtom (not_or.1 hend).1 (not_or.1 hend).2 hatom
      obtain ⟨suffixes, rfl, hsuffixes⟩ := isSuffixed_of_readSuffixes hitem
      obtain ⟨texts, rfl, htexts⟩ := written_of_readSequence hitems
      exact ⟨text ++ suffixes ++ texts, by simp [htext], .cons (.suffixed hwritten hsuffixes) htexts⟩

theorem written_of_readAtom {fuel : Nat} {c : Char} {cs rest : List Char} {r : Regex} (hbar : c ≠ '|')
    (hclose : c ≠ ')') (h : readAtom alnum fuel c cs = .ok (r, rest)) :
    ∃ text, c :: cs = text ++ rest ∧ Written alnum (.atom r) text := by
  match fuel with
  | 0 => exact absurd h (by simp [readAtom])
  | fuel + 1 =>
    rw [readAtom] at h
    split_ifs at h with hopen hset hany hescape hrepeat hanchor
    · simp only [bind_eq_ok_iff] at h
      obtain ⟨inner, hinner, ⟨rs, after⟩, hrs, h⟩ := h
      obtain ⟨text, rfl, htext⟩ := written_of_readAlternatives hrs
      simp only at h
      split at h
      · obtain ⟨rfl, rfl⟩ := Prod.mk.inj (Except.ok.inj h)
        rcases eq_of_skipGroupMark hinner with rfl | rfl
        · exact ⟨_, by rw [hopen]; simp, .markedGroup htext⟩
        · exact ⟨_, by rw [hopen]; simp, .group htext⟩
      · exact absurd h (by simp)
    · obtain ⟨body, items, hbody, hitems, ⟨rfl, rfl⟩ | ⟨rfl, rfl, hcaret⟩⟩ := readSet_eq_ok_iff.1 h
      · exact ⟨_, by rw [hset]; simp, .negatedSet hbody hitems⟩
      · exact ⟨_, by rw [hset]; simp, .set hbody hitems hcaret⟩
    · obtain ⟨rfl, rfl⟩ := Prod.mk.inj (Except.ok.inj h)
      exact ⟨[c], rfl, hany ▸ .any⟩
    · obtain ⟨⟨e, after⟩, he, h⟩ := bind_eq_ok_iff.1 h
      obtain ⟨ds, rfl, hds⟩ := readEscape_eq_ok_iff.1 he
      cases e with
      | char d =>
        obtain ⟨rfl, rfl⟩ := Prod.mk.inj (Except.ok.inj h)
        exact ⟨c :: ds, rfl, hescape ▸ .escapedChar hds⟩
      | cls k =>
        obtain ⟨rfl, rfl⟩ := Prod.mk.inj (Except.ok.inj h)
        exact ⟨c :: ds, rfl, hescape ▸ .escapedClass hds⟩
    · obtain ⟨rfl, rfl⟩ := Prod.mk.inj (Except.ok.inj h)
      exact ⟨[c], rfl, .plain (by simp_all [reserved])⟩

end

/-! ### What is written -/

/-- What the text of a part begins with: never with a suffix, and an item does not end its sequence. -/
def Part.Begins : Part → List Char → Prop
  | .alternatives _, text => ∀ c ∈ text.head?, c ∉ suffixMarks
  | .sequence _, text => ∀ c ∈ text.head?, c ∉ suffixMarks
  | .item _, text => ∃ c cs, text = c :: cs ∧ c ∉ suffixMarks ∧ c ≠ '|' ∧ c ≠ ')'
  | .atom _, text => ∃ c cs, text = c :: cs ∧ c ∉ suffixMarks ∧ c ≠ '|' ∧ c ≠ ')'

theorem Written.begins {part : Part} {text : List Char} (h : Written alnum part text) : part.Begins text := by
  induction h with
  | single _ ih => exact ih
  | @bar _ _ cs _ _ _ ih =>
    cases cs with
    | nil => simp [Part.Begins, suffixMarks]
    | cons c cs => exact ih
  | nil => simp [Part.Begins]
  | cons _ _ ih =>
    obtain ⟨c, cs, rfl, hc, -⟩ := ih
    simpa [Part.Begins] using hc
  | suffixed _ _ ih =>
    obtain ⟨c, cs, rfl, hc⟩ := ih
    exact ⟨c, _, rfl, hc⟩
  | plain h =>
    exact ⟨_, _, rfl, by simp_all [suffixMarks, reserved]⟩
  | _ => exact ⟨_, _, rfl, by decide⟩

theorem skipGroupMark_eq {cs : List Char} (h : ∀ c ∈ cs.head?, c ≠ '?') : skipGroupMark cs = .ok cs := by
  match cs with
  | [] => rfl
  | c :: cs => simp [skipGroupMark, h c rfl]

/-- The readers take the text for the part and leave the rest, which does not belong to the part. Two readers
are entered for each part at most, and so twice the length of the text is fuel enough. -/
def Part.IsRead (alnum : Char → Bool) (text : List Char) : Part → Prop
  | .alternatives rs => ∀ fuel rest, 2 * text.length ≤ fuel → (∀ c ∈ rest.head?, c = ')') →
      readAlternatives alnum (fuel + 2) (text ++ rest) = .ok (rs, rest)
  | .sequence rs => ∀ fuel rest, 2 * text.length ≤ fuel → (∀ c ∈ rest.head?, c = '|' ∨ c = ')') →
      readSequence alnum (fuel + 1) (text ++ rest) = .ok (rs, rest)
  | .item r => ∀ fuel rest rs rest', 2 * text.length ≤ fuel → (∀ c ∈ rest.head?, c ∉ suffixMarks) →
      readSequence alnum fuel rest = .ok (rs, rest') →
      readSequence alnum (fuel + 1) (text ++ rest) = .ok (r :: rs, rest')
  | .atom r => ∀ fuel c cs rest, text = c :: cs → 2 * text.length ≤ fuel + 1 →
      readAtom alnum (fuel + 1) c (cs ++ rest) = .ok (r, rest)

/-- A group is read as the alternatives in it. -/
theorem readAtom_group {fuel : Nat} {cs inner rest : List Char} {rs : List Regex}
    (hmark : skipGroupMark cs = .ok inner)
    (hrs : readAlternatives alnum fuel inner = .ok (rs, ')' :: rest)) :
    readAtom alnum (fuel + 1) '(' cs = .ok (ofAlternatives rs, rest) := by
  rw [readAtom, if_pos rfl]
  exact bind_eq_ok_iff.2 ⟨_, hmark, bind_eq_ok_iff.2 ⟨_, hrs, rfl⟩⟩

/-- What is written is read. The statement of an item is about the sequence that it begins, since its suffixes
end where the next item begins. -/
theorem Written.isRead {part : Part} {text : List Char} (h : Written alnum part text) :
    part.IsRead alnum text := by
  induction h with
  | single _ ih =>
    intro fuel rest hfuel hrest
    refine bind_eq_ok_iff.2 ⟨_, ih fuel rest hfuel fun c hc => Or.inr (hrest c hc), ?_⟩
    match rest with
    | [] => rfl
    | c :: rest =>
      obtain rfl := hrest c rfl
      rfl
  | @bar rs alts cs ds _ _ ih ihrest =>
    intro fuel rest hfuel hrest
    rw [List.length_append, List.length_cons] at hfuel
    obtain ⟨fuel, rfl⟩ : ∃ k, fuel = k + 1 := ⟨fuel - 1, by omega⟩
    have hfirst := ih (fuel + 1) ('|' :: ds ++ rest) (by omega) (by simp)
    rw [← List.append_assoc] at hfirst
    exact bind_eq_ok_iff.2 ⟨_, hfirst, bind_eq_ok_iff.2 ⟨_, ihrest fuel rest (by omega) hrest, rfl⟩⟩
  | nil =>
    intro fuel rest _ hrest
    match rest with
    | [] => rfl
    | c :: rest => exact if_pos (hrest c rfl)
  | @cons r rs cs ds h hrest ih ihrest =>
    intro fuel rest hfuel hend
    obtain ⟨c, cs, rfl, -⟩ := h.begins
    rw [List.length_append, List.length_cons] at hfuel
    obtain ⟨fuel, rfl⟩ : ∃ k, fuel = k + 1 := ⟨fuel - 1, by omega⟩
    rw [List.append_assoc]
    refine ih (fuel + 1) (ds ++ rest) _ _ (by rw [List.length_cons]; omega) ?_
      (ihrest fuel rest (by omega) hend)
    -- neither another item nor the end of the sequence begins with a suffix
    intro d hd
    cases ds with
    | nil => rcases hend d hd with rfl | rfl <;> decide
    | cons e ds => exact hrest.begins d hd
  | @suffixed a r cs ds h hsuffixes ih =>
    intro fuel rest rs rest' hfuel hrest hrs
    obtain ⟨c, cs, rfl, -, hbar, hclose⟩ := h.begins
    rw [List.length_append, List.length_cons] at hfuel
    obtain ⟨fuel, rfl⟩ : ∃ k, fuel = k + 1 := ⟨fuel - 1, by omega⟩
    have hatom := ih fuel c cs (ds ++ rest) rfl (by rw [List.length_cons]; omega)
    have hitem : readSuffixes ((ds ++ rest).length + 1) a (ds ++ rest) = .ok (r, rest) :=
      hsuffixes.readSuffixes_eq hrest (by rw [List.length_append]; omega)
    rw [List.append_assoc, List.cons_append, readSequence, if_neg (not_or.2 ⟨hbar, hclose⟩)]
    exact bind_eq_ok_iff.2 ⟨_, hatom, bind_eq_ok_iff.2 ⟨_, hitem, bind_eq_ok_iff.2 ⟨_, hrs, rfl⟩⟩⟩
  | @group rs cs h ih =>
    rintro fuel _ _ rest ⟨rfl, rfl⟩ hfuel
    simp only [List.length_append, List.length_cons, List.length_nil] at hfuel
    obtain ⟨fuel, rfl⟩ : ∃ k, fuel = k + 2 := ⟨fuel - 2, by omega⟩
    have hinner := ih fuel (')' :: rest) (by omega) (by simp)
    rw [List.append_cons] at hinner
    refine readAtom_group (skipGroupMark_eq fun c hc => ?_) hinner
    -- no alternatives begin with a question mark, which would be taken for the mark of the group
    rintro rfl
    cases cs with
    | nil => exact absurd hc (by simp)
    | cons d cs => exact absurd (by decide) (h.begins _ hc)
  | @markedGroup rs cs h ih =>
    rintro fuel _ _ rest ⟨rfl, rfl⟩ hfuel
    simp only [List.length_append, List.length_cons, List.length_nil] at hfuel
    obtain ⟨fuel, rfl⟩ : ∃ k, fuel = k + 2 := ⟨fuel - 2, by omega⟩
    have hinner := ih fuel (')' :: rest) (by omega) (by simp)
    rw [List.append_cons] at hinner
    exact readAtom_group rfl hinner
  | set h hitems hcaret =>
    rintro fuel _ _ rest ⟨rfl, rfl⟩ _
    exact readSet_eq_ok_iff.2 ⟨_, _, h, hitems, Or.inr ⟨by simp, rfl, hcaret⟩⟩
  | negatedSet h hitems =>
    rintro fuel _ _ rest ⟨rfl, rfl⟩ _
    exact readSet_eq_ok_iff.2 ⟨_, _, h, hitems, Or.inl ⟨by simp, rfl⟩⟩
  | any =>
    rintro fuel _ _ rest ⟨rfl, rfl⟩ _
    rfl
  | escapedChar h =>
    rintro fuel _ _ rest ⟨rfl, rfl⟩ _
    exact bind_eq_ok_iff.2 ⟨_, readEscape_eq_ok_iff.2 ⟨_, rfl, h⟩, rfl⟩
  | escapedClass h =>
    rintro fuel _ _ rest ⟨rfl, rfl⟩ _
    exact bind_eq_ok_iff.2 ⟨_, readEscape_eq_ok_iff.2 ⟨_, rfl, h⟩, rfl⟩
  | plain h =>
    rintro fuel _ _ rest ⟨rfl, rfl⟩ _
    simp only [reserved, List.mem_cons, List.not_mem_nil, not_or, or_false] at h
    simp [readAtom, h]

/-- What is read as a pattern is what can be written. -/
theorem readPattern_eq_ok_iff {cs : List Char} {r : Regex} :
    readPattern alnum cs = .ok r ↔ IsWritten alnum cs r := by
  rw [readPattern, bind_eq_ok_iff]
  constructor
  · rintro ⟨⟨rs, rest⟩, hrs, h⟩
    obtain ⟨text, rfl, htext⟩ := written_of_readAlternatives hrs
    simp only at h
    split at h
    · next hrest =>
      rw [List.isEmpty_iff.1 hrest, List.append_nil]
      exact ⟨rs, htext, (Except.ok.inj h).symm⟩
    · exact absurd h (by simp)
  · rintro ⟨rs, h, rfl⟩
    refine ⟨(rs, []), ?_, rfl⟩
    have := h.isRead (4 * cs.length + 2) [] (by omega) nofun
    rwa [List.append_nil] at this

theorem parseWith_eq_ok_iff {pattern : String} {r : Regex} :
    parseWith alnum pattern = .ok r ↔ readPattern alnum pattern.toList = .ok r := by
  rw [parseWith]
  split <;> simp_all

/-- A text is a pattern for one expression at most. -/
theorem IsWritten.unique {text : List Char} {r r' : Regex} (h : IsWritten alnum text r)
    (h' : IsWritten alnum text r') : r = r' :=
  Except.ok.inj ((readPattern_eq_ok_iff.2 h).symm.trans (readPattern_eq_ok_iff.2 h'))

/-- A pattern is read as an expression if and only if it is written for it, and all that is read is in
order. This is so for every class of alphanumeric characters, `Text.isAlphanumeric` among them. -/
theorem parse_dialect (alnum : Char → Bool) (pattern : String) (r : Regex) :
    (parseWith alnum pattern = .ok r ↔ IsWritten alnum pattern.toList r) ∧
      (parseWith alnum pattern = .ok r → r.InOrder) := by
  have hiff : parseWith alnum pattern = .ok r ↔ IsWritten alnum pattern.toList r :=
    parseWith_eq_ok_iff.trans readPattern_eq_ok_iff
  exact ⟨hiff, fun h => (hiff.1 h).inOrder⟩

/-- A pattern with bounds and a set is read and in order. A bound beyond all that are told apart cannot be
written. -/
theorem parse_dialect_counted :
    (parse "a\x7b2,3\x7d|[^a-z-]" = .ok
        (.alt [.repeated (.char 'a') 2 (some 3), .set true [.range 'a' 'z', .char '-']]) ∧
      InOrder (.alt [.repeated (.char 'a') 2 (some 3), .set true [.range 'a' 'z', .char '-']])) ∧
    ¬ IsWritten isAlphanumeric "a\x7b4294967298\x7d".toList (.repeated (.char 'a') 2 (some 2)) := by
  have htext : "a\x7b2,3\x7d|[^a-z-]".toList =
      ['a', '{', '2', ',', '3', '}', '|', '[', '^', 'a', '-', 'z', '-', ']'] := rfl
  have htext' : "a\x7b4294967298\x7d".toList =
      ['a', '{', '4', '2', '9', '4', '9', '6', '7', '2', '9', '8', '}'] := rfl
  have hparse : parse "a\x7b2,3\x7d|[^a-z-]" = .ok
      (.alt [.repeated (.char 'a') 2 (some 3), .set true [.range 'a' 'z', .char '-']]) := by
    rw [parse, parseWith_eq_ok_iff, htext]
    rfl
  refine ⟨⟨hparse, (parse_dialect isAlphanumeric _ _).2 hparse⟩, fun hwritten => ?_⟩
  have hread := parseWith_eq_ok_iff.1 ((parse_dialect isAlphanumeric _ _).1.2 hwritten)
  rw [htext'] at hread
  exact nomatch hread

end ShiftReduce.Regex
