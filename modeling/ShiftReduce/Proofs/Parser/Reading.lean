import ShiftReduce.Parser.Run
import ShiftReduce.Proofs.Lalr.Stack
import ShiftReduce.Proofs.Parser.Blueprint

/-!
# What a parser has not read yet

A parser reads its input token by token and stops at the token that marks the end. `Parser.unread`
lists the token that it looks at and those behind it, as the lexer gives them. Reading on takes the
first of them away (`Proper.unread_of_nextToken`), and discarding takes some away
(`Proper.unread_of_discard`).
-/

namespace ShiftReduce

namespace Lexer

variable {lx : Lexer} {ps : List Pattern} {eof pos : Nat} {cs : List Char}

/-- The tokens of a text, by what stands next in it. -/
theorem tokensFrom_of_scan (lx : Lexer) (pos : Nat) (cs : List Char) : lx.tokensFrom pos cs =
    match lx.scan pos cs with
    | .token t after => .ok t :: lx.tokensFrom after.pos after.rest
    | .stray e after => .error e :: lx.tokensFrom after.pos after.rest
    | .ending stop => [.ok (lx.endToken stop)] := by
  rw [tokensFrom]
  split
  · next hscan => rw [hscan]
  · next hscan => rw [hscan]
  · next hscan => rw [hscan]

/-- A token that is found belongs to a pattern. -/
theorem Realizes.exists_pattern_of_scan (h : lx.Realizes ps eof) {t : Token} {after : Cursor}
    (hscan : lx.scan pos cs = .token t after) : ∃ q ∈ ps, q.terminal = t.terminal := by
  fun_induction scan lx pos cs with
  | case1 => exact absurd hscan (by simp)
  | case2 pos c rest found hfound stop hskip ih => exact ih hscan
  | case3 pos c rest found hfound stop hskip =>
    obtain ⟨rfl, -⟩ := Scan.token.inj hscan
    obtain ⟨q, hq, hterminal, -⟩ := (h.longest_eq_some_iff.1 hfound).2.attributed.exists_pattern
    exact ⟨q, hq, hterminal⟩
  | case4 pos c rest hnone stop => exact absurd hscan (by simp)

end Lexer

namespace Parser

variable {α : Type} {p : Parser α} {input : String}

/-- The tokens from the one that the parser looks at on. Behind the token that marks the end nothing
is read any more. -/
def unread (p : Parser α) (token : Token) (ahead : Cursor) : List (Except LexError Token) :=
  .ok token ::
    if token.terminal = p.grammar.eof then [] else p.lexer.tokensFrom ahead.pos ahead.rest

theorem unread_of_ne {token : Token} (h : token.terminal ≠ p.grammar.eof) (ahead : Cursor) :
    p.unread token ahead = .ok token :: p.lexer.tokensFrom ahead.pos ahead.rest := by
  rw [unread, if_neg h]

theorem Proper.made (h : p.Proper) : Tables.Made p.grammar p.tables := Tables.made_of_build h.tables

theorem Proper.eof (h : p.Proper) : p.tables.eof = p.grammar.eof := h.made.eof

/-- The lexer marks the end by the terminal for it, and nothing else. -/
theorem Proper.terminal_ne_eof (h : p.Proper) {pos : Nat} {cs : List Char} {t : Token}
    {after : Cursor} (hscan : p.lexer.scan pos cs = .token t after) :
    t.terminal ≠ p.grammar.eof := by
  obtain ⟨q, hq, hterminal⟩ := h.lexer.exists_pattern_of_scan hscan
  rw [← hterminal]
  exact (h.patterns q hq).1

theorem Proper.unread_endToken (h : p.Proper) (pos : Nat) (ahead : Cursor) :
    p.unread (p.lexer.endToken pos) ahead = [.ok (p.lexer.endToken pos)] := by
  have heof : (p.lexer.endToken pos).terminal = p.grammar.eof := h.lexer.eof
  rw [unread, if_pos heof]

theorem Proper.unread_of_nextToken (h : p.Proper) {c ahead : Cursor} {token : Token}
    (hnext : p.nextToken input c = .ok (token, ahead)) :
    p.lexer.tokensFrom c.pos c.rest = p.unread token ahead := by
  rw [nextToken] at hnext
  rw [Lexer.tokensFrom_of_scan]
  cases hscan : p.lexer.scan c.pos c.rest with
  | token t after =>
    rw [hscan] at hnext
    obtain ⟨rfl, rfl⟩ := Prod.mk.inj (Except.ok.inj hnext)
    exact (unread_of_ne (h.terminal_ne_eof hscan) _).symm
  | stray e after =>
    rw [hscan] at hnext
    exact absurd hnext (by simp)
  | ending pos =>
    rw [hscan] at hnext
    obtain ⟨rfl, rfl⟩ := Prod.mk.inj (Except.ok.inj hnext)
    exact (h.unread_endToken pos _).symm

/-- Discarded tokens are taken away from those not read. -/
theorem Proper.unread_of_discard (h : p.Proper) {state : Nat} {e : ParseError}
    {token token' : Token} {ahead ahead' : Cursor} {moves : List Move}
    (hdiscard : p.discard input state e token ahead = (moves, .ok (token', ahead'))) :
    ∃ skipped : List Token,
      p.unread token ahead = skipped.map .ok ++ p.unread token' ahead' := by
  fun_induction discard p input state e token ahead generalizing moves with
  | case1 token ahead hact =>
    obtain ⟨-, hok⟩ := Prod.mk.inj hdiscard
    obtain ⟨rfl, rfl⟩ := Prod.mk.inj (Except.ok.inj hok)
    exact ⟨[], rfl⟩
  | case2 => exact absurd hdiscard (by simp)
  | case3 token ahead hact heof next after hscan moves' result hrest ih =>
    obtain ⟨-, rfl⟩ := Prod.mk.inj hdiscard
    obtain ⟨skipped, hskipped⟩ := ih hrest
    refine ⟨token :: skipped, ?_⟩
    rw [h.eof] at heof
    rw [unread_of_ne heof, Lexer.tokensFrom_of_scan, hscan, List.map_cons, List.cons_append,
      ← hskipped, unread_of_ne (h.terminal_ne_eof hscan)]
  | case4 => exact absurd hdiscard (by simp)
  | case5 token ahead hact heof pos hscan =>
    obtain ⟨-, hok⟩ := Prod.mk.inj hdiscard
    split at hok
    · obtain ⟨rfl, rfl⟩ := Prod.mk.inj (Except.ok.inj hok)
      refine ⟨[token], ?_⟩
      rw [h.eof] at heof
      rw [unread_of_ne heof, Lexer.tokensFrom_of_scan, hscan, h.unread_endToken]
      rfl
    · exact absurd hok (by simp)

/-! ### What a parser takes from its tables -/

theorem Proper.top_eq (h : p.Proper) (stack : List (Nat × α)) :
    p.top stack = Tables.topState stack := by
  rw [top, h.made.start, Tables.topState]

theorem Proper.getElem?_prods (h : p.Proper) {prod : Nat} (hprod : prod < p.grammar.prods.size) :
    p.tables.prods[prod]? = some (p.grammar.lhs prod, (p.grammar.rhs prod).length) := by
  rw [h.made.prods, Array.getElem?_map, Grammar.augment, Array.getElem?_push,
    if_neg (Nat.ne_of_lt hprod), Array.getElem?_eq_getElem hprod, Option.map_some]
  rw [Grammar.lhs_of_getElem? (Array.getElem?_eq_getElem hprod),
    Grammar.rhs_of_getElem? (Array.getElem?_eq_getElem hprod)]

theorem Proper.arity_eq (h : p.Proper) {prod : Nat} (hprod : prod < p.grammar.prods.size) :
    p.arity prod = (p.grammar.rhs prod).length := by
  rw [arity, h.getElem?_prods hprod]
  rfl

theorem Proper.target_eq (h : p.Proper) {prod : Nat} (hprod : prod < p.grammar.prods.size) :
    p.target prod = p.grammar.lhs prod := by
  rw [target, h.getElem?_prods hprod]
  rfl

end Parser

end ShiftReduce
