import ShiftReduce.Proofs.Grammar.Operators
import ShiftReduce.Proofs.Lalr.Filling
import ShiftReduce.Proofs.Lalr.Recursion

/-!
# The tables of infix operators

What can be read in a grammar of infix operators is known from its last symbols. Before an operand there
stands an operator or nothing (`Grammar.AtOperand`), and then comes an atom or an operand `E`. So a state
has at most one production to reduce by, and the only conflicts are those between `E op E` and an operator
that comes. They are all settled by precedence, and the tables are built
(`Grammar.IsInfix.exists_tables`).

What the tables do is said in both directions. Before an operand an atom is shifted (`exists_shift_atom`).
After an operand an operator that comes is shifted if the operator before the operand takes it on its
right (`exists_shift_operator`), and a production is reduced if the operator that comes takes its operator
on the left (`action_eq_reduce`). Nothing else is shifted or reduced (`of_shift`, `of_reduce`).
-/

namespace ShiftReduce

open Collection (walk)
open Canonical (Closure kernelAfter Sees)
open Tables (Made Orderly statesOf offers)

namespace Grammar

variable {g : Grammar} {atom : Nat} {ops : List Nat} {γ δ : List Symbol} {b : Option Nat}

/-- An operand has to come after these symbols: there are none, or an operand and an operator come last.
In the second case this is the operator. -/
inductive AtOperand (g : Grammar) (ops : List Nat) : List Symbol → Option Nat → Prop
  | nil : AtOperand g ops [] none
  | operator {γ : List Symbol} {b : Option Nat} {op : Nat} (h : AtOperand g ops γ b) (hop : op ∈ ops) :
    AtOperand g ops (γ ++ [.nonterminal g.start, .terminal op]) (some op)

namespace AtOperand

/-- The last symbol before an operand is an operator. -/
theorem mem_of_append {op : Nat} (h : AtOperand g ops (δ ++ [.terminal op]) b) : op ∈ ops := by
  generalize hγ : δ ++ [Symbol.terminal op] = γ at h
  cases h with
  | nil => exact absurd hγ (by simp)
  | @operator γ _ op' _ hop =>
    rw [List.append_cons γ] at hγ
    have hlast := (List.append_inj' hγ rfl).2
    simp only [List.cons.injEq, Symbol.terminal.injEq, and_true] at hlast
    rwa [hlast]

theorem not_append_nonterminal {n : Nat} : ¬ AtOperand g ops (δ ++ [.nonterminal n]) b := by
  intro h
  generalize hγ : δ ++ [Symbol.nonterminal n] = γ at h
  cases h with
  | nil => exact absurd hγ (by simp)
  | @operator γ _ _ _ _ =>
    rw [List.append_cons γ] at hγ
    exact absurd (List.append_inj' hγ rfl).2 (by simp)

/-- What stands before an operand and an operator stands before an operand. -/
theorem of_append {op : Nat}
    (h : AtOperand g ops (δ ++ [.nonterminal g.start, .terminal op]) b) :
    b = some op ∧ op ∈ ops ∧ ∃ b', AtOperand g ops δ b' := by
  generalize hγ : δ ++ [Symbol.nonterminal g.start, .terminal op] = γ at h
  cases h with
  | nil => exact absurd hγ (by simp)
  | @operator γ b' op' h hop =>
    obtain ⟨rfl, hlast⟩ := List.append_inj' hγ rfl
    simp only [List.cons.injEq, Symbol.terminal.injEq, and_true, true_and] at hlast
    subst hlast
    exact ⟨rfl, hop, b', h⟩

/-- The last operator can be told from the symbols. -/
theorem unique {b' : Option Nat} (h : AtOperand g ops γ b) (h' : AtOperand g ops γ b') : b = b' := by
  cases h with
  | nil =>
    generalize hγ : ([] : List Symbol) = γ at h'
    cases h' with
    | nil => rfl
    | operator _ _ => exact absurd hγ (by simp)
  | operator _ _ => exact h'.of_append.1.symm

end AtOperand

namespace IsInfix

variable {t : Tables} {i a p : Nat} {s : State} {c : Core}

theorem append_binary (g : Grammar) (δ : List Symbol) (op : Nat) :
    δ ++ g.binary op = δ ++ [.nonterminal g.start, .terminal op] ++ [.nonterminal g.start] := by
  rw [binary, List.append_assoc]
  rfl

theorem operator_ne_eof (h : g.IsInfix atom ops) {op : Nat} (hop : op ∈ ops) : op ≠ g.eof := by
  obtain ⟨q, -, hrhs⟩ := h.exists_binary op hop
  rintro rfl
  refine h.wellFormed.eof_not_mem q ?_
  rw [hrhs]
  simp [binary]

theorem operator_mem (h : g.IsInfix atom ops) {op : Nat} (hp : p < g.prods.size)
    (hrhs : g.rhs p = g.binary op) : op ∈ ops := by
  rcases h.rhs p hp with hrhs' | ⟨op', hop', hrhs'⟩
  · exact absurd (hrhs.symm.trans hrhs') (by simp [binary])
  · have heq := hrhs.symm.trans hrhs'
    simp only [binary, List.cons.injEq, Symbol.terminal.injEq] at heq
    rw [heq.2.1]
    exact hop'

/-- The terminals of the productions are the atom and the operators. -/
theorem mem_of_mem_rhs (h : g.IsInfix atom ops) (hmem : .terminal a ∈ g.rhs p) : a ∈ atom :: ops := by
  rcases h.rhs p (lt_size_of_mem_rhs hmem) with hrhs | ⟨op, hop, hrhs⟩
  · rw [hrhs, List.mem_singleton, Symbol.terminal.injEq] at hmem
    rw [hmem]
    exact List.mem_cons_self
  · rw [hrhs] at hmem
    simp only [binary, List.mem_cons, reduceCtorEq, Symbol.terminal.injEq, List.not_mem_nil, or_false,
      false_or] at hmem
    rw [hmem]
    exact List.mem_cons_of_mem _ hop

/-! ### What can be read -/

/-- A nonterminal that comes next is one of the two operands of an operator, or the whole input. -/
theorem rhs_of_next? (h : g.IsInfix atom ops) {n : Nat}
    (hnext : c.next? g.augment = some (.nonterminal n)) :
    (∃ op ∈ ops, g.augment.rhs c.prod = g.binary op ∧ (c.dot = 0 ∨ c.dot = 2)) ∨
      g.augment.rhs c.prod = [.nonterminal g.start, .terminal g.eof] ∧ c.dot = 0 := by
  have hmem := Canonical.mem_rhs_of_next? hnext
  rw [Core.next?, Core.rest, List.head?_drop] at hnext
  obtain ⟨p, dot⟩ := c
  rcases mem_rhs_augment hmem with ⟨hmem, hp⟩ | ⟨rfl, -⟩
  · rw [rhs_augment hp] at hnext ⊢
    rcases h.rhs p hp with hrhs | ⟨op, hop, hrhs⟩
    · rw [hrhs] at hmem
      exact absurd hmem (by simp)
    · refine Or.inl ⟨op, hop, hrhs, ?_⟩
      rw [hrhs, binary] at hnext
      rcases dot with _ | _ | _ | k
      · exact Or.inl rfl
      · exact absurd hnext (by simp)
      · exact Or.inr rfl
      · exact absurd hnext (by simp)
  · rw [rhs_augment_size] at hnext ⊢
    refine Or.inr ⟨rfl, ?_⟩
    rcases dot with _ | _ | k
    · rfl
    · exact absurd hnext (by simp)
    · exact absurd hnext (by simp)

/-- A nonterminal that comes next is an operand. -/
theorem atOperand_of_next? (h : g.IsInfix atom ops) {n : Nat}
    (hnext : c.next? g.augment = some (.nonterminal n)) (hδ : AtOperand g ops δ b) :
    ∃ b', AtOperand g ops (δ ++ (g.augment.rhs c.prod).take c.dot) b' := by
  rcases h.rhs_of_next? hnext with ⟨op, hop, hrhs, hdot | hdot⟩ | ⟨-, hdot⟩
  · rw [hdot, List.take_zero, List.append_nil]
    exact ⟨b, hδ⟩
  · rw [hdot, hrhs]
    exact ⟨some op, hδ.operator hop⟩
  · rw [hdot, List.take_zero, List.append_nil]
    exact ⟨b, hδ⟩

/-- A production was taken up where an operand has to come. -/
theorem exists_atOperand (h : g.IsInfix atom ops)
    (hc : Closure g.augment (kernelAfter g.augment γ) c) :
    ∃ δ b, AtOperand g ops δ b ∧ γ = δ ++ (g.augment.rhs c.prod).take c.dot := by
  refine Canonical.closure_induction (P := fun γ c =>
    ∃ δ b, AtOperand g ops δ b ∧ γ = δ ++ (g.augment.rhs c.prod).take c.dot) ?_ ?_ ?_ hc
  · exact ⟨[], none, .nil, rfl⟩
  · rintro γ c x ⟨δ, b, hδ, rfl⟩ hx -
    refine ⟨δ, b, hδ, ?_⟩
    rw [Core.next?, Core.rest, List.head?_drop] at hx
    rw [List.take_add_one, hx, Option.toList_some, List.append_assoc]
  · rintro γ c n p ⟨δ, b, hδ, rfl⟩ hnext -
    obtain ⟨b', hδ'⟩ := h.atOperand_of_next? hnext hδ
    exact ⟨_, b', hδ', (List.append_nil _).symm⟩

/-- A production that has been read. -/
theorem exists_read (h : g.IsInfix atom ops) (hp : p < g.prods.size)
    (hc : Closure g.augment (kernelAfter g.augment γ) ⟨p, (g.rhs p).length⟩) :
    ∃ δ b, AtOperand g ops δ b ∧ γ = δ ++ g.rhs p := by
  obtain ⟨δ, b, hδ, hγ⟩ := h.exists_atOperand hc
  rw [rhs_augment hp, List.take_length] at hγ
  exact ⟨δ, b, hδ, hγ⟩

/-- The terminals that may come are atoms before an operand and operators after one. -/
theorem calls_for (h : g.IsInfix atom ops) (hc : Closure g.augment (kernelAfter g.augment γ) c)
    (hnext : c.next? g.augment = some (.terminal a)) (ha : a ≠ g.eof) :
    (a = atom ∧ ∃ b, AtOperand g ops γ b) ∨
      a ∈ ops ∧ ∃ δ b, AtOperand g ops δ b ∧ γ = δ ++ [.nonterminal g.start] := by
  obtain ⟨δ, b, hδ, rfl⟩ := h.exists_atOperand hc
  have hmem := Canonical.mem_rhs_of_next? hnext
  rw [Core.next?, Core.rest, List.head?_drop] at hnext
  obtain ⟨p, dot⟩ := c
  rcases mem_rhs_augment hmem with ⟨-, hp⟩ | ⟨-, heq | heq⟩
  · rw [rhs_augment hp] at hnext ⊢
    rcases h.rhs p hp with hrhs | ⟨op, hop, hrhs⟩
    · rw [hrhs] at hnext ⊢
      rcases dot with _ | k
      · simp only [List.getElem?_cons_zero, Option.some.injEq, Symbol.terminal.injEq] at hnext
        exact Or.inl ⟨hnext.symm, b, by simpa using hδ⟩
      · exact absurd hnext (by simp)
    · rw [hrhs, binary] at hnext ⊢
      rcases dot with _ | _ | _ | k
      · exact absurd hnext (by simp)
      · simp only [List.getElem?_cons_succ, List.getElem?_cons_zero, Option.some.injEq,
          Symbol.terminal.injEq] at hnext
        exact Or.inr ⟨hnext ▸ hop, δ, b, hδ, rfl⟩
      · exact absurd hnext (by simp)
      · exact absurd hnext (by simp)
  · exact absurd heq (by simp)
  · exact absurd (Symbol.terminal.inj heq) ha

/-- After a production no operand has to come. -/
theorem not_atOperand_rhs (h : g.IsInfix atom ops) (hp : p < g.prods.size) :
    ¬ AtOperand g ops (δ ++ g.rhs p) b := by
  intro hδ
  rcases h.rhs p hp with hrhs | ⟨op, -, hrhs⟩
  · rw [hrhs] at hδ
    exact h.atom_not_mem hδ.mem_of_append
  · rw [hrhs, append_binary] at hδ
    exact hδ.not_append_nonterminal

/-- What has been read last is an operand only in `E op E`. -/
theorem rhs_of_append (h : g.IsInfix atom ops) (hp : p < g.prods.size) {δ' : List Symbol}
    (heq : δ ++ [.nonterminal g.start] = δ' ++ g.rhs p) : ∃ op ∈ ops, g.rhs p = g.binary op ∧
      δ = δ' ++ [.nonterminal g.start, .terminal op] := by
  rcases h.rhs p hp with hrhs | ⟨op, hop, hrhs⟩
  · rw [hrhs] at heq
    exact absurd (List.append_inj' heq rfl).2 (by simp)
  · refine ⟨op, hop, hrhs, ?_⟩
    rw [hrhs, append_binary] at heq
    exact (List.append_inj' heq rfl).1

/-- There is at most one production to reduce by. -/
theorem eq_of_append (h : g.IsInfix atom ops) {q : Nat} (hp : p < g.prods.size)
    (hq : q < g.prods.size) {δ' : List Symbol} (heq : δ ++ g.rhs p = δ' ++ g.rhs q) : p = q := by
  refine h.rhs_inj p hp q hq ?_
  rcases h.rhs p hp with hrhs | ⟨op, -, hrhs⟩ <;> rcases h.rhs q hq with hrhs' | ⟨op', -, hrhs'⟩ <;>
    rw [hrhs, hrhs'] at heq ⊢
  · rw [append_binary] at heq
    exact absurd (List.append_inj' heq rfl).2 (by simp)
  · rw [append_binary] at heq
    exact absurd (List.append_inj' heq rfl).2 (by simp)
  · exact (List.append_inj' heq rfl).2

/-! ### Lookaheads -/

/-- Any production may be taken up before an operand, whatever operator comes behind it, or the end of
the input. -/
theorem sees (h : g.IsInfix atom ops) (hγ : AtOperand g ops γ b) (hp : p < g.prods.size)
    (ha : a ∈ ops ∨ a = g.eof) : Sees g.augment γ ⟨p, 0⟩ a := by
  have hG := isAugmented_augment h.wellFormed
  have hlisted : ∀ {p}, p < g.prods.size → p ∈ g.augment.prodsOf g.start := by
    intro p hp
    rw [prodsOf_augment h.wellFormed.start_lt, ← h.lhs p hp]
    exact h.listsAll p hp
  have hrest : ∀ {p dot op}, p < g.prods.size → g.rhs p = g.binary op →
      Core.rest g.augment ⟨p, dot⟩ = (g.binary op).drop dot := by
    intro p dot op hp hrhs
    rw [Core.rest, rhs_augment hp, hrhs]
  induction hγ generalizing p a with
  | nil =>
    have hend : ∀ {p}, p < g.prods.size → Sees g.augment [] ⟨p, 0⟩ g.eof := by
      intro p hp
      refine .begins (c := ⟨g.augment.acceptProd, 0⟩) (.kernel rfl) ?_ (hlisted hp) (.here [])
      rw [Core.rest, List.drop_zero, acceptProd_augment, rhs_augment_size]
    rcases ha with ha | rfl
    · obtain ⟨q, hq, hrhs⟩ := h.exists_binary a ha
      exact .begins (hend hq).closure (hrest hq hrhs) (hlisted hp) (.here _)
    · exact hend hp
  | @operator γ b op _ hop ih =>
    obtain ⟨q, hq, hrhs⟩ := h.exists_binary op hop
    have hfirst : Core.next? g.augment ⟨q, 0⟩ = some (.nonterminal g.start) := by
      rw [Core.next?, hrest hq hrhs]
      rfl
    have hsecond : Core.next? g.augment ⟨q, 1⟩ = some (.terminal op) := by
      rw [Core.next?, hrest hq hrhs]
      rfl
    have hread := (ih hq ha).goto hfirst (Canonical.accepts_eq_false hG hfirst (by simp))
    have hread' := hread.goto hsecond
      (Canonical.accepts_eq_false hG hsecond fun heq => h.operator_ne_eof hop (Symbol.terminal.inj heq))
    rw [List.append_assoc] at hread'
    exact .vanishes hread' (hrest hq hrhs) (hlisted hp) .nil

theorem sees_rhs (h : g.IsInfix atom ops) (hδ : AtOperand g ops δ b) (hp : p < g.prods.size)
    (ha : a ∈ ops ∨ a = g.eof) : Sees g.augment (δ ++ g.rhs p) ⟨p, (g.rhs p).length⟩ a := by
  have hread := (h.sees hδ hp ha).read_rest (isAugmented_augment h.wellFormed) (ne_acceptProd hp)
  rwa [Core.rest, List.drop_zero, rhs_augment hp] at hread

/-- An operand is behind what stands before it. -/
theorem closure_operand (h : g.IsInfix atom ops) (hδ : AtOperand g ops δ b) {op : Nat}
    (hop : op ∈ ops) : ∃ c, Closure g.augment (kernelAfter g.augment (δ ++ [.nonterminal g.start])) c ∧
      c.next? g.augment = some (.terminal op) := by
  obtain ⟨q, hq, hrhs⟩ := h.exists_binary op hop
  have hnext : ∀ dot, Core.next? g.augment ⟨q, dot⟩ = (g.binary op)[dot]? := by
    intro dot
    rw [Core.next?, Core.rest, List.head?_drop, rhs_augment hq, hrhs]
  exact ⟨⟨q, 1⟩, Canonical.closure_goto (isAugmented_augment h.wellFormed)
    (h.sees hδ hq (Or.inl hop)).closure (hnext 0) (by simp), hnext 1⟩

/-- Only operators and the end of the input are lookaheads. -/
theorem mem_of_sees (h : g.IsInfix atom ops) (hsees : Sees g.augment γ c a) :
    a ∈ ops ∨ a = g.eof := by
  induction hsees with
  | start => exact Or.inr rfl
  | @begins γ c a n p rest hc hrest hp hbegins =>
    have hcases := h.rhs_of_next? (Canonical.next?_of_rest hrest)
    rw [Core.rest] at hrest
    rcases hcases with ⟨op, hop, hrhs, hdot | hdot⟩ | ⟨hrhs, hdot⟩
    · rw [hrhs, hdot, binary] at hrest
      obtain ⟨-, rfl⟩ := List.cons.inj hrest
      exact Or.inl (begins_terminal_iff.1 hbegins ▸ hop)
    · rw [hrhs, hdot, binary] at hrest
      obtain ⟨-, rfl⟩ := List.cons.inj hrest
      cases hbegins
    · rw [hrhs, hdot] at hrest
      obtain ⟨-, rfl⟩ := List.cons.inj hrest
      exact Or.inr (begins_terminal_iff.1 hbegins)
  | vanishes _ _ _ _ ih => exact ih
  | goto _ _ _ ih => exact ih

/-! ### Offers -/

theorem of_shift_offer (h : g.IsInfix atom ops) (hwalk : walk (statesOf g) 0 γ = some i)
    (hs : (statesOf g)[i]? = some s) {j : Nat} (ho : (a, .shift j) ∈ offers g.augment s) :
    (a = atom ∧ ∃ b, AtOperand g ops γ b) ∨
      a ∈ ops ∧ ∃ δ b, AtOperand g ops δ b ∧ γ = δ ++ [.nonterminal g.start] := by
  obtain ⟨-, ha, c, hc, hnext⟩ := Tables.shift_offer_spec h.wellFormed hwalk hs ho
  exact h.calls_for hc hnext ha

theorem of_reduce_offer (h : g.IsInfix atom ops) (hwalk : walk (statesOf g) 0 γ = some i)
    (hs : (statesOf g)[i]? = some s) (ho : (a, .reduce p) ∈ offers g.augment s) :
    p < g.prods.size ∧ (a ∈ ops ∨ a = g.eof) ∧ ∃ δ b, AtOperand g ops δ b ∧ γ = δ ++ g.rhs p := by
  obtain ⟨hp, hc, γ', -, hsees⟩ := Tables.reduce_offer_spec h.wellFormed hwalk hs ho
  exact ⟨hp, h.mem_of_sees hsees, h.exists_read hp hc⟩

/-- Where a shift and a reduction meet, an operator comes after `E op E`. -/
theorem of_both_offers (h : g.IsInfix atom ops) (hwalk : walk (statesOf g) 0 γ = some i)
    (hs : (statesOf g)[i]? = some s) {j : Nat} (hshift : (a, .shift j) ∈ offers g.augment s)
    (hreduce : (a, .reduce p) ∈ offers g.augment s) : a ∈ ops ∧ p < g.prods.size ∧
      ∃ op ∈ ops, g.rhs p = g.binary op ∧ ∃ δ b, AtOperand g ops δ b ∧ γ = δ ++ g.binary op := by
  obtain ⟨hp, -, δ, b, hδ, rfl⟩ := h.of_reduce_offer hwalk hs hreduce
  rcases h.of_shift_offer hwalk hs hshift with ⟨-, b', hγ⟩ | ⟨ha, δ', b', -, heq⟩
  · exact absurd hγ (h.not_atOperand_rhs hp)
  · obtain ⟨op, hop, hrhs, -⟩ := h.rhs_of_append hp heq.symm
    exact ⟨ha, hp, op, hop, hrhs, δ, b, hδ, by rw [hrhs]⟩

/-- The offers of every state are orderly. -/
theorem orderly (h : g.IsInfix atom ops) (hs : (statesOf g)[i]? = some s) :
    Orderly g.augment (offers g.augment s) := by
  obtain ⟨γ, hwalk⟩ := Tables.exists_walk_of_state h.wellFormed hs
  refine
    { peaceful := fun a =>
        { shift := Tables.offers_shift_unique, reduce := ?_, chosen := ?_, accept := ?_ }
      below := (Tables.regular_offers h.wellFormed hs).below
      nodup := Tables.nodup_offers h.wellFormed hs }
  · intro p p' ho ho'
    obtain ⟨hp, -, δ, b, -, hγ⟩ := h.of_reduce_offer hwalk hs ho
    obtain ⟨hp', -, δ', b', -, hγ'⟩ := h.of_reduce_offer hwalk hs ho'
    exact h.eq_of_append hp hp' (hγ.symm.trans hγ')
  · intro j p ho ho'
    obtain ⟨ha, hp, op, hop, hrhs, -⟩ := h.of_both_offers hwalk hs ho ho'
    obtain ⟨choice, hchoice, -⟩ := h.exists_preference hp hrhs hop ha
    exact ⟨choice, hchoice⟩
  · intro o haccept ho
    obtain ⟨rfl, rfl⟩ := Tables.accept_offer_spec h.wellFormed hwalk hs haccept
    cases o with
    | shift j =>
      exact absurd rfl (Tables.shift_offer_spec h.wellFormed hwalk hs ho).2.1
    | reduce p =>
      obtain ⟨hp, -, δ, b, -, hγ⟩ := h.of_reduce_offer hwalk hs ho
      obtain ⟨op, -, -, hnil⟩ := h.rhs_of_append (δ := []) hp hγ
      exact absurd hnil (by simp)
    | accept => rfl

/-- The tables of infix operators are built. -/
theorem exists_tables (h : g.IsInfix atom ops) : ∃ t, Tables.build g = .ok t :=
  Tables.exists_build fun hs => (h.orderly hs).exists_fill

/-- Every production has a terminal, so reductions come to an end. -/
theorem halts (h : g.IsInfix atom ops) (ht : Made g t) (hwalk : walk (statesOf g) 0 γ = some i) :
    Tables.Halts g t a γ := by
  have hterminals : ∀ p < g.prods.size, ∃ u, .terminal u ∈ g.rhs p := by
    intro p hp
    rcases h.rhs p hp with hrhs | ⟨op, -, hrhs⟩
    · exact ⟨atom, by rw [hrhs]; exact List.mem_cons_self⟩
    · exact ⟨op, by rw [hrhs]; simp [binary]⟩
  obtain ⟨hcyclic, hhidden⟩ := not_recursive_of_terminals hterminals
  exact ht.halts_of_not_recursive h.wellFormed hcyclic hhidden hwalk

/-! ### Actions -/

/-- The cells of the tables show what precedence makes of the offers. -/
theorem exists_cell (h : g.IsInfix atom ops) (ht : Made g t) (hs : (statesOf g)[i]? = some s)
    (a : Nat) : ∃ cell : Cell, t.actionAt i a = cell.action ∧
      cell.Shows g.augment a fun o => (a, o) ∈ offers g.augment s := by
  obtain ⟨cells, hcells, hrow⟩ := ht.rows hs
  exact ⟨_, Tables.actionAt_of_cells hcells, hrow.shows (h.orderly hs) a⟩

/-- An atom is shifted where an operand has to come. -/
theorem exists_shift_atom (h : g.IsInfix atom ops) (ht : Made g t) (hγ : AtOperand g ops γ b)
    (hwalk : walk (statesOf g) 0 γ = some i) : ∃ j, t.actionAt i atom = .shift j := by
  obtain ⟨s, hs⟩ := Tables.exists_state h.wellFormed hwalk
  obtain ⟨p, hp, hrhs⟩ := h.exists_atom
  have hne : atom ≠ g.eof := by
    rintro rfl
    refine h.wellFormed.eof_not_mem p ?_
    rw [hrhs]
    exact List.mem_singleton_self _
  have hnext : Core.next? g.augment ⟨p, 0⟩ = some (.terminal atom) := by
    rw [Core.next?, Core.rest, rhs_augment hp, hrhs]
    rfl
  obtain ⟨-, j, ho⟩ := Tables.exists_shift_offer h.wellFormed hwalk hs
    (h.sees hγ hp (Or.inr rfl)).closure hnext hne
  obtain ⟨cell, haction, hshows⟩ := h.exists_cell ht hs atom
  refine ⟨j, haction.trans (hshows.action_of_shift ((h.orderly hs).peaceful atom) ho ?_)⟩
  intro q hq
  exact absurd (h.of_both_offers hwalk hs ho hq).1 h.atom_not_mem

/-- An operator that comes after an operand is shifted, unless there is an operator before the operand
that does not take it on its right. -/
theorem exists_shift_operator (h : g.IsInfix atom ops) (ht : Made g t) (hδ : AtOperand g ops δ b)
    (hwalk : walk (statesOf g) 0 (δ ++ [.nonterminal g.start]) = some i) (ha : a ∈ ops)
    (htakes : ∀ op ∈ b, g.Takes .right op a) : ∃ j, t.actionAt i a = .shift j := by
  obtain ⟨s, hs⟩ := Tables.exists_state h.wellFormed hwalk
  obtain ⟨c, hc, hnext⟩ := h.closure_operand hδ ha
  obtain ⟨-, j, ho⟩ := Tables.exists_shift_offer h.wellFormed hwalk hs hc hnext (h.operator_ne_eof ha)
  obtain ⟨cell, haction, hshows⟩ := h.exists_cell ht hs a
  refine ⟨j, haction.trans (hshows.action_of_shift ((h.orderly hs).peaceful a) ho ?_)⟩
  intro p hp
  obtain ⟨-, hlt, op, hop, hrhs, δ', b', -, heq⟩ := h.of_both_offers hwalk hs ho hp
  rw [append_binary] at heq
  obtain rfl := (List.append_inj' heq rfl).1
  obtain ⟨rfl, -⟩ := hδ.of_append
  obtain ⟨choice, hchoice, hshift, -⟩ := h.exists_preference hlt hrhs hop ha
  rw [hchoice, hshift.2 (htakes op rfl)]

/-- A production that has been read is reduced, unless an operator comes that does not take the operator
of the production on its left. -/
theorem action_eq_reduce (h : g.IsInfix atom ops) (ht : Made g t) (hδ : AtOperand g ops δ b)
    (hp : p < g.prods.size) (hwalk : walk (statesOf g) 0 (δ ++ g.rhs p) = some i)
    (ha : a ∈ ops ∨ a = g.eof)
    (htakes : ∀ op, g.rhs p = g.binary op → a ∈ ops → g.Takes .left a op) :
    t.actionAt i a = .reduce p := by
  obtain ⟨s, hs⟩ := Tables.exists_state h.wellFormed hwalk
  obtain ⟨-, ho⟩ := Tables.reduce_offer_of_sees h.wellFormed hwalk hs hp (h.sees_rhs hδ hp ha)
  obtain ⟨cell, haction, hshows⟩ := h.exists_cell ht hs a
  refine haction.trans (hshows.action_of_reduce ((h.orderly hs).peaceful a) ho ?_)
  intro j hj
  obtain ⟨ha, -, op, hop, hrhs, -⟩ := h.of_both_offers hwalk hs hj ho
  obtain ⟨choice, hchoice, -, hreduce⟩ := h.exists_preference hp hrhs hop ha
  rw [hchoice, hreduce.2 (htakes op hrhs ha)]

/-- A single operand is accepted at the end of the input. -/
theorem action_eq_accept (h : g.IsInfix atom ops) (ht : Made g t)
    (hwalk : walk (statesOf g) 0 [.nonterminal g.start] = some i) : t.actionAt i g.eof = .accept := by
  obtain ⟨s, hs⟩ := Tables.exists_state h.wellFormed hwalk
  have ho := Tables.accept_offer_of_start h.wellFormed hwalk hs
  obtain ⟨cell, haction, hshows⟩ := h.exists_cell ht hs g.eof
  exact haction.trans (hshows.action_of_accept ((h.orderly hs).peaceful g.eof) ho)

/-- An atom is shifted only before an operand, and an operator only after one, if the operator before
the operand takes it on its right. -/
theorem of_shift (h : g.IsInfix atom ops) (ht : Made g t) (hwalk : walk (statesOf g) 0 γ = some i)
    {j : Nat} (haction : t.actionAt i a = .shift j) : (a = atom ∧ ∃ b, AtOperand g ops γ b) ∨
      a ∈ ops ∧ ∃ δ b, AtOperand g ops δ b ∧ γ = δ ++ [.nonterminal g.start] ∧
        ∀ op ∈ b, g.Takes .right op a := by
  obtain ⟨s, hs⟩ := Tables.exists_state h.wellFormed hwalk
  obtain ⟨cell, hcell, hshows⟩ := h.exists_cell ht hs a
  obtain ⟨ho, hchosen⟩ := hshows.of_action_shift (hcell.symm.trans haction)
  refine (h.of_shift_offer hwalk hs ho).imp_right ?_
  rintro ⟨ha, δ, b, hδ, rfl⟩
  refine ⟨ha, δ, b, hδ, rfl, ?_⟩
  -- the production of the operator before the operand could be reduced as well
  intro op hop
  obtain rfl : b = some op := hop
  cases hδ with
  | @operator δ b' _ hδ hop =>
    obtain ⟨p, hp, hrhs⟩ := h.exists_binary op hop
    rw [← append_binary, ← hrhs] at hwalk
    obtain ⟨-, ho'⟩ :=
      Tables.reduce_offer_of_sees h.wellFormed hwalk hs hp (h.sees_rhs hδ hp (Or.inl ha))
    obtain ⟨choice, hchoice, hshift, -⟩ := h.exists_preference hp hrhs hop ha
    exact hshift.1 (Option.some.inj (hchoice.symm.trans (hchosen p ho')))

/-- A production is reduced only when it has been read. If an operator comes, it takes the operator of
the production on its left. -/
theorem of_reduce (h : g.IsInfix atom ops) (ht : Made g t) (hwalk : walk (statesOf g) 0 γ = some i)
    (haction : t.actionAt i a = .reduce p) : p < g.prods.size ∧
      ∃ δ b, AtOperand g ops δ b ∧ γ = δ ++ g.rhs p ∧
        ∀ op, g.rhs p = g.binary op → a ≠ g.eof → g.Takes .left a op := by
  obtain ⟨s, hs⟩ := Tables.exists_state h.wellFormed hwalk
  obtain ⟨cell, hcell, hshows⟩ := h.exists_cell ht hs a
  obtain ⟨ho, hchosen⟩ := hshows.of_action_reduce (hcell.symm.trans haction)
  obtain ⟨hp, ha, δ, b, hδ, rfl⟩ := h.of_reduce_offer hwalk hs ho
  refine ⟨hp, δ, b, hδ, rfl, ?_⟩
  -- the operator that comes could be shifted as well
  intro op hrhs hne
  have ha := ha.resolve_right hne
  have hop : op ∈ ops := h.operator_mem hp hrhs
  rw [hrhs, append_binary] at hwalk
  obtain ⟨c, hc, hnext⟩ := h.closure_operand (hδ.operator hop) ha
  obtain ⟨-, j, hj⟩ := Tables.exists_shift_offer h.wellFormed hwalk hs hc hnext hne
  obtain ⟨choice, hchoice, -, hreduce⟩ := h.exists_preference hp hrhs hop ha
  exact hreduce.1 (Option.some.inj (hchoice.symm.trans (hchosen j hj)))

end IsInfix

end Grammar

end ShiftReduce
