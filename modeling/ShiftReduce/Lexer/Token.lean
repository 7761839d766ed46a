import ShiftReduce.Lexer.Basic
import ShiftReduce.Text.Location
import ShiftReduce.Text.Quoted

/-!
# Tokens

The input is cut from left to right. At each place the longest match is taken; a match of a skipped
terminal leaves no trace, any other becomes a token. Where nothing matches, one character is
reported and left out. A token of the terminal for the end of the input comes last.

`Lexer.scan` finds what stands next, so that a parser can read an input token by token and leave the
rest of it alone. `Lexer.tokens` goes on to the end of the input.
-/

namespace ShiftReduce

/-- A piece of the input, from byte `start` up to byte `stop`. -/
structure Token where
  terminal : Nat
  text : String
  start : Nat
  stop : Nat
deriving DecidableEq

/-- A character that begins no match, from byte `start` up to byte `stop`. -/
structure LexError where
  char : Char
  start : Nat
  stop : Nat
deriving DecidableEq

/-- A place in a text: the byte that has been reached and the characters that are left. -/
structure Cursor where
  pos : Nat
  rest : List Char
deriving DecidableEq

/-- What stands next in a text, and the place after it. -/
inductive Scan where
  | token (t : Token) (after : Cursor)
  | stray (e : LexError) (after : Cursor)
  /-- Nothing is left, and the input has `pos` bytes. -/
  | ending (pos : Nat)
deriving DecidableEq

/-- The place after a token or a stray character. -/
def Scan.after? : Scan → Option Cursor
  | token _ after => some after
  | stray _ after => some after
  | ending _ => none

/-- The wording of a lexical error. -/
def LexError.message (e : LexError) : String :=
  "no terminal matches " ++ Text.quoted e.char ++ " at offset " ++ toString e.start

namespace Lexer

open ShiftReduce.Text

/-- The longest match at the beginning of the text. -/
def longest (lx : Lexer) (cs : List Char) : Option Match :=
  match lx.automaton with
  | .tabular t => t.recognizer.munch lx.alphabet.letter t.recognizer.start cs
  | .nfa m => m.recognizer.munch lx.alphabet.letter m.recognizer.start cs

theorem length_rest_lt_of_longest {lx : Lexer} {cs : List Char} {found : Match}
    (h : lx.longest cs = some found) : found.rest.length < cs.length := by
  unfold longest at h
  split at h
  · exact Recognizer.length_rest_lt _ _ h
  · exact Recognizer.length_rest_lt _ _ h

/-- Finds what stands next. The matches of skipped terminals are passed over. -/
def scan (lx : Lexer) (pos : Nat) (cs : List Char) : Scan :=
  match cs with
  | [] => .ending pos
  | c :: rest =>
    match _h : lx.longest (c :: rest) with
    | some found =>
      let stop := pos + byteLength found.lexeme
      if found.terminal ∈ lx.skip then lx.scan stop found.rest
      else .token ⟨found.terminal, String.ofList found.lexeme, pos, stop⟩ ⟨stop, found.rest⟩
    | none =>
      let stop := pos + c.utf8Size
      .stray ⟨c, pos, stop⟩ ⟨stop, rest⟩
termination_by cs.length
decreasing_by exact length_rest_lt_of_longest _h

/-- What is left after a token or a stray character is shorter than the text. -/
theorem length_rest_lt_of_scan (lx : Lexer) (pos : Nat) (cs : List Char) (after : Cursor)
    (h : (lx.scan pos cs).after? = some after) : after.rest.length < cs.length := by
  fun_induction scan lx pos cs with
  | case1 => simp [Scan.after?] at h
  | case2 pos c rest found hfound stop hskip ih =>
    exact Nat.lt_trans (ih h) (length_rest_lt_of_longest hfound)
  | case3 pos c rest found hfound stop hskip =>
    simp only [Scan.after?, Option.some.injEq] at h
    rw [← h]
    exact length_rest_lt_of_longest hfound
  | case4 pos c rest hnone stop =>
    simp only [Scan.after?, Option.some.injEq] at h
    rw [← h]
    simp

/-- The token that marks the end of an input of `pos` bytes. -/
def endToken (lx : Lexer) (pos : Nat) : Token := ⟨lx.eof, "", pos, pos⟩

/-- The tokens of the text that is left at byte `pos`. -/
def tokensFrom (lx : Lexer) (pos : Nat) (cs : List Char) : List (Except LexError Token) :=
  match _h : lx.scan pos cs with
  | .token t after => .ok t :: lx.tokensFrom after.pos after.rest
  | .stray e after => .error e :: lx.tokensFrom after.pos after.rest
  | .ending stop => [.ok (lx.endToken stop)]
termination_by cs.length
decreasing_by
  · exact lx.length_rest_lt_of_scan pos cs after (by rw [_h, Scan.after?])
  · exact lx.length_rest_lt_of_scan pos cs after (by rw [_h, Scan.after?])

/-- The tokens depend only on what stands next. -/
theorem tokensFrom_congr {lx : Lexer} {pos pos' : Nat} {cs cs' : List Char}
    (h : lx.scan pos cs = lx.scan pos' cs') : lx.tokensFrom pos cs = lx.tokensFrom pos' cs' := by
  rw [tokensFrom.eq_def lx pos cs, tokensFrom.eq_def lx pos' cs']
  split <;> split <;> simp_all

/-- At the end of the input there is only the token that marks it. -/
theorem tokensFrom_nil (lx : Lexer) (pos : Nat) :
    lx.tokensFrom pos [] = [.ok (lx.endToken pos)] := by
  rw [tokensFrom]
  split <;> simp_all [scan]

/-- A skipped match leaves no trace. -/
theorem tokensFrom_of_skip {lx : Lexer} {pos : Nat} {cs : List Char} {found : Match}
    (h : lx.longest cs = some found) (hskip : found.terminal ∈ lx.skip) :
    lx.tokensFrom pos cs = lx.tokensFrom (pos + byteLength found.lexeme) found.rest := by
  apply tokensFrom_congr
  cases cs with
  | nil => exact absurd (length_rest_lt_of_longest h) (Nat.not_lt_zero _)
  | cons c rest =>
    rw [scan]
    split <;> simp_all

/-- Any other match is a token. -/
theorem tokensFrom_of_match {lx : Lexer} {pos : Nat} {cs : List Char} {found : Match}
    (h : lx.longest cs = some found) (hskip : found.terminal ∉ lx.skip) :
    lx.tokensFrom pos cs =
      .ok ⟨found.terminal, String.ofList found.lexeme, pos, pos + byteLength found.lexeme⟩ ::
        lx.tokensFrom (pos + byteLength found.lexeme) found.rest := by
  cases cs with
  | nil => exact absurd (length_rest_lt_of_longest h) (Nat.not_lt_zero _)
  | cons c rest =>
    have hscan : lx.scan pos (c :: rest) =
        .token ⟨found.terminal, String.ofList found.lexeme, pos, pos + byteLength found.lexeme⟩
          ⟨pos + byteLength found.lexeme, found.rest⟩ := by
      rw [scan]
      split <;> simp_all
    rw [tokensFrom]
    split <;> simp_all

/-- A character that begins no match is reported and left out. -/
theorem tokensFrom_of_none {lx : Lexer} {pos : Nat} {c : Char} {rest : List Char}
    (h : lx.longest (c :: rest) = none) :
    lx.tokensFrom pos (c :: rest) =
      .error ⟨c, pos, pos + c.utf8Size⟩ :: lx.tokensFrom (pos + c.utf8Size) rest := by
  have hscan : lx.scan pos (c :: rest) =
      .stray ⟨c, pos, pos + c.utf8Size⟩ ⟨pos + c.utf8Size, rest⟩ := by
    rw [scan]
    split <;> simp_all
  rw [tokensFrom]
  split <;> simp_all

/-- The tokens of an input, lexical errors among them. -/
def tokens (lx : Lexer) (input : String) : List (Except LexError Token) :=
  lx.tokensFrom 0 input.toList

end Lexer

end ShiftReduce
