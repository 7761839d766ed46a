import Mathlib.Data.List.Induction
import Mathlib.Data.List.Sort
import Mathlib.Data.Prod.Lex
import ShiftReduce.Text.Location

/-!
# Locations identify offsets

An offset between two characters is told apart from all others by its line and its column: with every
character the location grows in the order of lines and, within a line, of columns (`key_lt_advance`),
so that it is strictly monotone on such offsets (`strictMonoOn_ofOffset`).

The location can also be looked up. A table of line starts has zero and the byte after each line feed
(`lineStarts`); the line is the number of the last start at or before the offset, and the column tells
how many characters lie between the two (`inTable_ofOffset`). The table gives no other location
(`Location.InTable.unique`).
-/

namespace ShiftReduce

open Text

/-! ### Places in a text -/

theorem utf8ByteSize_ofList (cs : List Char) : (String.ofList cs).utf8ByteSize = byteLength cs := by
  induction cs with
  | nil => rfl
  | cons c cs ih =>
    rw [String.ofList_cons, String.utf8ByteSize_append, ih, String.utf8ByteSize_singleton,
      byteLength_cons]

theorem byteLength_pos {cs : List Char} (h : cs ≠ []) : 0 < byteLength cs := by
  obtain ⟨c, cs, rfl⟩ := List.exists_cons_of_ne_nil h
  rw [byteLength_cons]
  exact Nat.add_pos_left c.utf8Size_pos _

theorem byteLength_reverse (cs : List Char) : byteLength cs.reverse = byteLength cs := by
  induction cs with
  | nil => rfl
  | cons c cs ih =>
    rw [List.reverse_cons, byteLength_append, ih, byteLength_cons, byteLength_cons, byteLength_nil,
      Nat.add_zero, Nat.add_comm]

/-- The byte `offset` lies between two characters, or at one end, of the text that is left at byte
`pos`. -/
def BoundaryFrom (pos : Nat) (cs : List Char) (offset : Nat) : Prop :=
  ∃ u v, cs = u ++ v ∧ offset = pos + byteLength u

/-- The byte `offset` lies between two characters of the text, or at one end of it. -/
def IsBoundary (text : String) (offset : Nat) : Prop := BoundaryFrom 0 text.toList offset

theorem boundaryFrom_start (pos : Nat) (cs : List Char) : BoundaryFrom pos cs pos :=
  ⟨[], cs, rfl, rfl⟩

theorem BoundaryFrom.behind {pos offset : Nat} {w rest : List Char}
    (h : BoundaryFrom (pos + byteLength w) rest offset) : BoundaryFrom pos (w ++ rest) offset := by
  obtain ⟨u, v, rfl, rfl⟩ := h
  refine ⟨w ++ u, v, (List.append_assoc w u v).symm, ?_⟩
  rw [byteLength_append, Nat.add_assoc]

theorem isBoundary_iff {text : String} {offset : Nat} :
    IsBoundary text offset ↔ ∃ u v, text.toList = u ++ v ∧ byteLength u = offset := by
  simp only [IsBoundary, BoundaryFrom, Nat.zero_add, eq_comm]

namespace Text

/-! ### The characters before an offset -/

theorem before_zero (cs : List Char) : before 0 cs = [] := by
  cases cs with
  | nil => rfl
  | cons c cs => exact if_neg (Nat.not_le_of_lt c.utf8Size_pos)

/-- What lies wholly before the offset comes first. -/
theorem before_append {offset : Nat} {u : List Char} (h : byteLength u ≤ offset) (v : List Char) :
    before offset (u ++ v) = u ++ before (offset - byteLength u) v := by
  induction u generalizing offset with
  | nil => rfl
  | cons c u ih =>
    rw [byteLength_cons] at h ⊢
    rw [List.cons_append, before, if_pos (Nat.le_of_add_right_le h), ih (Nat.le_sub_of_add_le' h),
      Nat.sub_sub, List.cons_append]

theorem before_byteLength (u v : List Char) : before (byteLength u) (u ++ v) = u := by
  rw [before_append (Nat.le_refl _), Nat.sub_self, before_zero, List.append_nil]

theorem before_of_byteLength_le {offset : Nat} {cs : List Char} (h : byteLength cs ≤ offset) :
    before offset cs = cs := by
  have := before_append h []
  rwa [List.append_nil, before, List.append_nil] at this

namespace Location

theorem ofOffset_eq {text : String} {u v : List Char} (h : text.toList = u ++ v) :
    ofOffset text (byteLength u) = after u := by
  rw [ofOffset, h, before_byteLength]

/-- An offset past the end gives the location of the end. -/
theorem ofOffset_of_le {text : String} {offset : Nat} (h : text.utf8ByteSize ≤ offset) :
    ofOffset text offset = ofOffset text text.utf8ByteSize := by
  have hsize : text.utf8ByteSize = byteLength text.toList := by
    rw [← utf8ByteSize_ofList, String.ofList_toList]
  rw [hsize] at h ⊢
  rw [ofOffset, ofOffset, before_of_byteLength_le h, before_of_byteLength_le (Nat.le_refl _)]

theorem after_append_singleton (cs : List Char) (c : Char) :
    after (cs ++ [c]) = (after cs).advance c := List.foldl_append

/-- The line counts the line feeds, and the column the characters behind the last of them. -/
theorem after_eq_scans (cs : List Char) :
    after cs = ⟨cs.count '\n' + 1, (cs.reverse.takeWhile (· ≠ '\n')).length + 1⟩ := by
  induction cs using List.reverseRecOn with
  | nil => rfl
  | append_singleton cs c ih =>
    rw [after_append_singleton, ih, advance, List.count_append, List.reverse_concat,
      List.takeWhile_cons]
    by_cases hc : c = '\n'
    · simp [hc]
    · simp [hc]

/-! ### The order of locations -/

/-- A location in the order of lines, and of columns within a line. -/
def key (l : Location) : Nat ×ₗ Nat := toLex (l.line, l.column)

theorem key_lt_advance (l : Location) (c : Char) : l.key < (l.advance c).key := by
  rw [key, key, Prod.Lex.toLex_lt_toLex, advance]
  split
  · exact Or.inl (Nat.lt_succ_self _)
  · exact Or.inr ⟨rfl, Nat.lt_succ_self _⟩

theorem key_lt_foldl {cs : List Char} (h : cs ≠ []) (l : Location) :
    l.key < (cs.foldl advance l).key := by
  induction cs generalizing l with
  | nil => exact absurd rfl h
  | cons c cs ih =>
    rw [List.foldl_cons]
    rcases eq_or_ne cs [] with rfl | hne
    · exact key_lt_advance l c
    · exact (key_lt_advance l c).trans (ih hne _)

/-- Of two offsets between characters the smaller one has the smaller location. -/
theorem strictMonoOn_ofOffset (text : String) :
    StrictMonoOn (fun offset => (ofOffset text offset).key) {offset | IsBoundary text offset} := by
  intro a ha b hb hab
  obtain ⟨u, v, hu, rfl⟩ := isBoundary_iff.1 ha
  obtain ⟨u', v', hu', rfl⟩ := isBoundary_iff.1 hb
  -- the shorter beginning of the text is a beginning of the longer one
  obtain ⟨w, rfl, -⟩ | ⟨w, rfl, -⟩ := List.append_eq_append_iff.1 (hu.symm.trans hu')
  · have hne : w ≠ [] := by
      rintro rfl
      rw [List.append_nil] at hab
      exact Nat.lt_irrefl _ hab
    simp only [ofOffset_eq hu, ofOffset_eq hu']
    rw [after, after, List.foldl_append]
    exact key_lt_foldl hne _
  · rw [byteLength_append] at hab
    exact absurd hab (Nat.not_lt_of_le (Nat.le_add_right _ _))

/-- An offset between characters can be recovered from its location. -/
theorem injOn_ofOffset (text : String) :
    Set.InjOn (ofOffset text) {offset | IsBoundary text offset} :=
  fun _ ha _ hb heq => (strictMonoOn_ofOffset text).injOn ha hb (congrArg key heq)

end Location

/-! ### Tables of line starts -/

/-- The bytes after the line feeds of the text that is left at byte `pos`. -/
def lineStartsFrom (pos : Nat) : List Char → List Nat
  | [] => []
  | c :: cs =>
    if c = '\n' then (pos + 1) :: lineStartsFrom (pos + 1) cs
    else lineStartsFrom (pos + c.utf8Size) cs

/-- The bytes at which the lines of a text start: zero, and the byte after each line feed. -/
def lineStarts (text : String) : List Nat := 0 :: lineStartsFrom 0 text.toList

theorem utf8Size_newline : '\n'.utf8Size = 1 := rfl

theorem lineStartsFrom_append (pos : Nat) (u v : List Char) :
    lineStartsFrom pos (u ++ v) = lineStartsFrom pos u ++ lineStartsFrom (pos + byteLength u) v := by
  induction u generalizing pos with
  | nil => rfl
  | cons c u ih =>
    rw [List.cons_append, lineStartsFrom, lineStartsFrom, byteLength_cons, ← Nat.add_assoc]
    split
    · next hc => rw [ih, hc, utf8Size_newline, List.cons_append]
    · rw [ih]

theorem lineStartsFrom_append_newline (pos : Nat) (cs : List Char) :
    lineStartsFrom pos (cs ++ ['\n']) = lineStartsFrom pos cs ++ [pos + byteLength cs + 1] := by
  rw [lineStartsFrom_append, lineStartsFrom, if_pos rfl, lineStartsFrom]

theorem lineStartsFrom_append_of_ne {c : Char} (hc : c ≠ '\n') (pos : Nat) (cs : List Char) :
    lineStartsFrom pos (cs ++ [c]) = lineStartsFrom pos cs := by
  rw [lineStartsFrom_append, lineStartsFrom, if_neg hc, lineStartsFrom, List.append_nil]

/-- A line other than the first starts behind what comes before the text. -/
theorem lt_of_mem_lineStartsFrom {pos s : Nat} {cs : List Char} (h : s ∈ lineStartsFrom pos cs) :
    pos < s := by
  induction cs generalizing pos with
  | nil => exact absurd h List.not_mem_nil
  | cons c cs ih =>
    rw [lineStartsFrom] at h
    split at h
    · rcases List.mem_cons.1 h with rfl | h
      · exact Nat.lt_succ_self _
      · exact Nat.lt_of_succ_lt (ih h)
    · exact Nat.lt_of_le_of_lt (Nat.le_add_right _ _) (ih h)

theorem le_of_mem_lineStartsFrom_cons {pos s : Nat} {c : Char} {cs : List Char}
    (h : s ∈ lineStartsFrom pos (c :: cs)) : pos + c.utf8Size ≤ s := by
  rw [lineStartsFrom] at h
  split at h
  · next hc =>
    rw [hc, utf8Size_newline]
    rcases List.mem_cons.1 h with rfl | h
    · exact Nat.le_refl _
    · exact Nat.le_of_lt (lt_of_mem_lineStartsFrom h)
  · exact Nat.le_of_lt (lt_of_mem_lineStartsFrom h)

theorem mem_lineStartsFrom_iff {pos s : Nat} {cs : List Char} : s ∈ lineStartsFrom pos cs ↔
    ∃ u v, cs = u ++ '\n' :: v ∧ s = pos + byteLength u + 1 := by
  constructor
  · intro h
    induction cs generalizing pos with
    | nil => exact absurd h List.not_mem_nil
    | cons c cs ih =>
      rw [lineStartsFrom] at h
      split at h
      · next hc =>
        rcases List.mem_cons.1 h with rfl | h
        · exact ⟨[], cs, by rw [hc, List.nil_append], rfl⟩
        · obtain ⟨u, v, rfl, rfl⟩ := ih h
          refine ⟨c :: u, v, rfl, ?_⟩
          rw [byteLength_cons, hc, utf8Size_newline, Nat.add_assoc pos]
      · obtain ⟨u, v, rfl, rfl⟩ := ih h
        exact ⟨c :: u, v, rfl, by rw [byteLength_cons, Nat.add_assoc pos]⟩
  · rintro ⟨u, v, rfl, rfl⟩
    rw [lineStartsFrom_append, lineStartsFrom, if_pos rfl]
    exact List.mem_append_right _ List.mem_cons_self

/-- A line starts at zero and after each line feed. -/
theorem mem_lineStarts_iff {text : String} {s : Nat} : s ∈ lineStarts text ↔
    s = 0 ∨ ∃ u v, text.toList = u ++ '\n' :: v ∧ s = byteLength u + 1 := by
  simp only [lineStarts, List.mem_cons, mem_lineStartsFrom_iff, Nat.zero_add]

theorem pairwise_lineStartsFrom (pos : Nat) (cs : List Char) :
    (lineStartsFrom pos cs).Pairwise (· < ·) := by
  induction cs generalizing pos with
  | nil => exact .nil
  | cons c cs ih =>
    rw [lineStartsFrom]
    split
    · exact .cons (fun s hs => lt_of_mem_lineStartsFrom hs) (ih _)
    · exact ih _

/-- The lines start one after the other. -/
theorem pairwise_lineStarts (text : String) : (lineStarts text).Pairwise (· < ·) :=
  .cons (fun _ hs => lt_of_mem_lineStartsFrom hs) (pairwise_lineStartsFrom 0 text.toList)

/-- There is one table of line starts in ascending order. -/
theorem eq_lineStarts {text : String} {starts : List Nat}
    (hmem : ∀ s, s ∈ starts ↔ s = 0 ∨ ∃ u v, text.toList = u ++ '\n' :: v ∧ s = byteLength u + 1)
    (hsorted : starts.Pairwise (· < ·)) : starts = lineStarts text :=
  hsorted.eq_of_mem_iff (pairwise_lineStarts text) fun s => (hmem s).trans mem_lineStarts_iff.symm

/-- The last line that starts in a text, and how many characters of it there are. -/
theorem exists_lastLine (cs : List Char) : ∃ front line, cs = front ++ line ∧
    (0 :: lineStartsFrom 0 cs)[(lineStartsFrom 0 cs).length]? = some (byteLength front) ∧
    Location.after cs = ⟨(lineStartsFrom 0 cs).length + 1, line.length + 1⟩ := by
  induction cs using List.reverseRecOn with
  | nil => exact ⟨[], [], rfl, rfl, rfl⟩
  | append_singleton cs c ih =>
    obtain ⟨front, line, hsplit, hstart, hafter⟩ := ih
    by_cases hc : c = '\n'
    · rw [Location.after_append_singleton, hafter, Location.advance, if_pos hc, hc,
        lineStartsFrom_append_newline, List.length_append, List.length_singleton]
      refine ⟨cs ++ ['\n'], [], (List.append_nil _).symm, ?_, rfl⟩
      rw [← List.cons_append, ← List.length_cons (a := 0), List.getElem?_concat_length,
        byteLength_append, Nat.zero_add]
      rfl
    · rw [Location.after_append_singleton, hafter, Location.advance, if_neg hc,
        lineStartsFrom_append_of_ne hc]
      refine ⟨front, line ++ [c], by rw [hsplit, List.append_assoc], hstart, ?_⟩
      rw [List.length_append, List.length_singleton]

/-- The location that a table of line starts gives to an offset: the line is the number, from one, of
the last start at or before the offset, and the column is one more than the number of characters from
there up to the offset. -/
def Location.InTable (starts : List Nat) (text : String) (offset : Nat) (l : Location) : Prop :=
  ∃ (i s : Nat) (front line rest : List Char),
    starts[i]? = some s ∧ s ≤ offset ∧
    (∀ j s', i < j → starts[j]? = some s' → offset < s') ∧
    text.toList = front ++ line ++ rest ∧ byteLength front = s ∧
    byteLength (front ++ line) = offset ∧ l = ⟨i + 1, line.length + 1⟩

/-- The location of an offset between characters is the one that the table gives. -/
theorem Location.inTable_ofOffset {text : String} {offset : Nat} (h : IsBoundary text offset) :
    (ofOffset text offset).InTable (lineStarts text) text offset := by
  obtain ⟨u, v, hu, rfl⟩ := isBoundary_iff.1 h
  obtain ⟨front, line, rfl, hstart, hafter⟩ := exists_lastLine u
  have hstarts : lineStarts text =
      (0 :: lineStartsFrom 0 (front ++ line)) ++ lineStartsFrom (byteLength (front ++ line)) v := by
    rw [lineStarts, hu, lineStartsFrom_append, Nat.zero_add, List.cons_append]
  refine ⟨_, _, front, line, v, ?_, ?_, ?_, hu, rfl, rfl, (ofOffset_eq hu).trans hafter⟩
  · rw [hstarts, List.getElem?_append_left (Nat.lt_succ_self _)]
    exact hstart
  · rw [byteLength_append]
    exact Nat.le_add_right _ _
  · intro j s' hj hs'
    rw [hstarts, List.getElem?_append_right hj] at hs'
    exact lt_of_mem_lineStartsFrom (List.mem_of_getElem? hs')

/-- A table gives one location to an offset. -/
theorem Location.InTable.unique {starts : List Nat} {text : String} {offset : Nat} {l l' : Location}
    (h : l.InTable starts text offset) (h' : l'.InTable starts text offset) : l = l' := by
  obtain ⟨i, s, front, line, rest, hs, hle, hlast, htext, hfront, hend, rfl⟩ := h
  obtain ⟨i', s', front', line', rest', hs', hle', hlast', htext', hfront', hend', rfl⟩ := h'
  obtain rfl : i = i' := by
    rcases Nat.lt_trichotomy i i' with hlt | heq | hgt
    · exact absurd hle' (Nat.not_le_of_lt (hlast i' s' hlt hs'))
    · exact heq
    · exact absurd hle (Nat.not_le_of_lt (hlast' i s hgt hs))
  obtain rfl : s = s' := Option.some.inj (hs.symm.trans hs')
  -- the same bytes of the text lie before the line, and before the offset
  obtain rfl : front = front' := by
    rw [← before_byteLength front (line ++ rest), ← before_byteLength front' (line' ++ rest'),
      ← List.append_assoc, ← List.append_assoc, ← htext, ← htext', hfront, hfront']
  have hbefore : front ++ line = front ++ line' := by
    rw [← before_byteLength (front ++ line) rest, ← before_byteLength (front ++ line') rest',
      ← htext, ← htext', hend, hend']
  rw [List.append_cancel_left hbefore]

example : lineStarts "ab\ncé\nd" = [0, 3, 7] ∧ Location.ofOffset "ab\ncé\nd" 6 = ⟨2, 3⟩ := by
  decide

end Text

end ShiftReduce
