import Mathlib.Data.List.Induction
import Mathlib.Data.Set.Basic
import ShiftReduce.Lalr.Collection
import ShiftReduce.Proofs.Grammar.Derivation
import ShiftReduce.Proofs.Grammar.WellFormed

/-!
# The canonical collection

What the states of an LALR(1) automaton are meant to be, said without lists, blocks and queues.

* `Canonical.Closure` and `Canonical.goto` are the LR(0) closure and the LR(0) move on sets of
  cores, and `Canonical.kernelAfter g γ` is the kernel after reading the symbols `γ`. The kernels of
  the canonical collection are the non-empty ones among them.
* `Canonical.Valid g γ c t` says that the LR(1) item `[c, t]` is valid after `γ`, by LR(1) closure
  and moves from `[S' -> . S $end, $end]`.
* `Canonical.Sees g γ c t` is validity for items that carry sets of lookaheads. An item whose own set
  is empty is still there, and it still hands on the terminals with which the symbols behind the
  nonterminal after its dot begin. The two notions differ only where a nonterminal derives neither
  the empty text nor anything that begins with a terminal.
-/

namespace ShiftReduce

namespace Canonical

variable {g : Grammar}

/-- The LR(0) closure of a set of cores. -/
inductive Closure (g : Grammar) (kernel : Set Core) : Core → Prop
  | kernel {c : Core} (hc : c ∈ kernel) : Closure g kernel c
  | expand {c : Core} {n p : Nat} (hc : Closure g kernel c)
    (hn : c.next? g = some (.nonterminal n)) (hp : p ∈ g.prodsOf n) : Closure g kernel ⟨p, 0⟩

/-- The cores after reading over a symbol in the closure of a kernel. The end of the input is not
read over in `S' -> S . $end`. -/
def goto (g : Grammar) (kernel : Set Core) (x : Symbol) : Set Core :=
  {c | ∃ b, Closure g kernel b ∧ b.next? g = some x ∧ Collection.accepts g b = false ∧
    c = ⟨b.prod, b.dot + 1⟩}

/-- The first kernel, `S' -> . S $end`. -/
def start (g : Grammar) : Set Core := {⟨g.acceptProd, 0⟩}

/-- The kernel after reading some symbols, which is empty if they cannot be read. -/
def kernelAfter (g : Grammar) (γ : List Symbol) : Set Core := γ.foldl (goto g) (start g)

@[simp] theorem kernelAfter_nil (g : Grammar) : kernelAfter g [] = start g := rfl

@[simp] theorem kernelAfter_append_singleton (g : Grammar) (γ : List Symbol) (x : Symbol) :
    kernelAfter g (γ ++ [x]) = goto g (kernelAfter g γ) x := by
  simp [kernelAfter]

/-- The LR(1) item with the core `c` and the lookahead `t` is valid after the symbols `γ`. -/
inductive Valid (g : Grammar) : List Symbol → Core → Nat → Prop
  | start : Valid g [] ⟨g.acceptProd, 0⟩ g.eof
  | closure {γ : List Symbol} {c : Core} {t n p u : Nat} {rest : List Symbol} (h : Valid g γ c t)
    (hrest : c.rest g = .nonterminal n :: rest) (hp : p ∈ g.prodsOf n)
    (hu : ∃ ys, g.Derives (rest ++ [.terminal t]) (.terminal u :: ys)) : Valid g γ ⟨p, 0⟩ u
  | goto {γ : List Symbol} {c : Core} {t : Nat} {x : Symbol} (h : Valid g γ c t)
    (hx : c.next? g = some x) : Valid g (γ ++ [x]) ⟨c.prod, c.dot + 1⟩ t

/-- The terminal `t` is a lookahead of the item with the core `c` after the symbols `γ`, where items
carry sets of lookaheads, of which some may be empty. -/
inductive Sees (g : Grammar) : List Symbol → Core → Nat → Prop
  | start : Sees g [] ⟨g.acceptProd, 0⟩ g.eof
  | begins {γ : List Symbol} {c : Core} {t n p : Nat} {rest : List Symbol}
    (h : Closure g (kernelAfter g γ) c) (hrest : c.rest g = .nonterminal n :: rest)
    (hp : p ∈ g.prodsOf n) (ht : g.Begins t rest) : Sees g γ ⟨p, 0⟩ t
  | vanishes {γ : List Symbol} {c : Core} {t n p : Nat} {rest : List Symbol} (h : Sees g γ c t)
    (hrest : c.rest g = .nonterminal n :: rest) (hp : p ∈ g.prodsOf n)
    (hvanish : g.Vanishes rest) : Sees g γ ⟨p, 0⟩ t
  | goto {γ : List Symbol} {c : Core} {t : Nat} {x : Symbol} (h : Sees g γ c t)
    (hx : c.next? g = some x) (hc : Collection.accepts g c = false) :
    Sees g (γ ++ [x]) ⟨c.prod, c.dot + 1⟩ t

/-! ### Cores -/

theorem next?_of_rest {c : Core} {x : Symbol} {rest : List Symbol} (h : c.rest g = x :: rest) :
    c.next? g = some x := by
  rw [Core.next?, h, List.head?_cons]

theorem rest_of_next? {c : Core} {x : Symbol} (h : c.next? g = some x) :
    c.rest g = x :: Core.rest g ⟨c.prod, c.dot + 1⟩ := by
  rw [Core.next?, Core.rest, List.head?_drop] at h
  obtain ⟨hlt, hget⟩ := List.getElem?_eq_some_iff.1 h
  rw [Core.rest, List.drop_eq_getElem_cons hlt, hget]
  rfl

theorem mem_rhs_of_next? {c : Core} {x : Symbol} (h : c.next? g = some x) : x ∈ g.rhs c.prod := by
  have : x ∈ c.rest g := by
    rw [rest_of_next? h]
    exact List.mem_cons_self
  exact List.mem_of_mem_drop this

theorem mem_rhs_of_mem_rest {c : Core} {x : Symbol} (h : x ∈ c.rest g) : x ∈ g.rhs c.prod :=
  List.mem_of_mem_drop h

theorem dot_lt_of_next? {c : Core} {x : Symbol} (h : c.next? g = some x) :
    c.dot < (g.rhs c.prod).length := by
  rw [Core.next?, Core.rest, List.head?_drop] at h
  exact (List.getElem?_eq_some_iff.1 h).1

theorem accepts_iff {c : Core} :
    Collection.accepts g c = true ↔ c.prod = g.acceptProd ∧ c.dot = 1 := by
  simp [Collection.accepts]

/-- Only the accepting item stands before the end of the input. -/
theorem accepts_of_next?_eof (hg : g.IsAugmented) {c : Core}
    (h : c.next? g = some (.terminal g.eof)) : Collection.accepts g c = true := by
  have hprod := hg.eq_acceptProd_of_eof c.prod (mem_rhs_of_next? h)
  obtain ⟨s, hs⟩ := hg.rhs_acceptProd
  rw [Core.next?, Core.rest, List.head?_drop, hprod, hs] at h
  rw [accepts_iff]
  refine ⟨hprod, ?_⟩
  match hdot : c.dot with
  | 0 =>
    rw [hdot] at h
    simp at h
  | 1 => rfl
  | k + 2 =>
    rw [hdot] at h
    simp at h

/-- The accepting item stands before the end of the input. -/
theorem next?_of_accepts (hg : g.IsAugmented) {c : Core} (h : Collection.accepts g c = true) :
    c.next? g = some (.terminal g.eof) := by
  obtain ⟨hprod, hdot⟩ := accepts_iff.1 h
  obtain ⟨s, hs⟩ := hg.rhs_acceptProd
  rw [Core.next?, Core.rest, hprod, hdot, hs]
  rfl

/-! ### The collection -/

theorem goto_empty (g : Grammar) (x : Symbol) : goto g ∅ x = ∅ := by
  have hclosure : ∀ c, ¬ Closure g ∅ c := by
    intro c h
    induction h with
    | kernel hc => exact hc
    | expand _ _ _ ih => exact ih
  rw [Set.eq_empty_iff_forall_notMem]
  rintro c ⟨b, hb, -⟩
  exact hclosure b hb

/-- What can be read on from can be read. -/
theorem nonempty_of_goto {kernel : Set Core} {x : Symbol} (h : (goto g kernel x).Nonempty) :
    kernel.Nonempty := by
  rw [Set.nonempty_iff_ne_empty]
  rintro rfl
  rw [goto_empty] at h
  exact Set.not_nonempty_empty h

/-- The end of the input is never read over. -/
theorem goto_eof (hg : g.IsAugmented) (kernel : Set Core) :
    goto g kernel (.terminal g.eof) = ∅ := by
  rw [Set.eq_empty_iff_forall_notMem]
  rintro c ⟨b, -, hnext, haccepts, -⟩
  rw [accepts_of_next?_eof hg hnext] at haccepts
  exact Bool.false_ne_true haccepts.symm

/-- The core of an item with a lookahead is in the closure. -/
theorem Sees.closure {γ : List Symbol} {c : Core} {t : Nat} (h : Sees g γ c t) :
    Closure g (kernelAfter g γ) c := by
  induction h with
  | start => exact .kernel rfl
  | begins h hrest hp _ => exact .expand h (next?_of_rest hrest) hp
  | vanishes _ hrest hp _ ih => exact .expand ih (next?_of_rest hrest) hp
  | goto _ hx hc ih =>
    rw [kernelAfter_append_singleton]
    exact .kernel ⟨_, ih, hx, hc, rfl⟩

/-- A valid LR(1) item is seen, as far as the symbols lead to a state. -/
theorem Valid.sees (hg : g.IsAugmented) {γ : List Symbol} {c : Core} {t : Nat} (h : Valid g γ c t)
    (hγ : (kernelAfter g γ).Nonempty) : Sees g γ c t := by
  induction h with
  | start => exact .start
  | @closure γ c t n p u rest _ hrest hp hu ih =>
    rcases Grammar.begins_append_terminal.1 (Grammar.begins_iff_derives.2 hu) with hu | ⟨hvan, rfl⟩
    · exact .begins (ih hγ).closure hrest hp hu
    · exact .vanishes (ih hγ) hrest hp hvan
  | @goto γ c t x _ hx ih =>
    rw [kernelAfter_append_singleton] at hγ
    refine .goto (ih (nonempty_of_goto hγ)) hx ?_
    by_contra hc
    rw [Bool.not_eq_false] at hc
    have heof := next?_of_accepts hg hc
    rw [hx, Option.some.injEq] at heof
    rw [heof, goto_eof hg] at hγ
    exact Set.not_nonempty_empty hγ

/-! ### Where the two notions agree -/

/-- The nonterminals that occur in what the accepting production derives by listed productions. -/
inductive Reachable (g : Grammar) : Nat → Prop
  | accept {m : Nat} (hm : .nonterminal m ∈ g.rhs g.acceptProd) : Reachable g m
  | listed {n m p : Nat} (hn : Reachable g n) (hp : p ∈ g.prodsOf n)
    (hm : .nonterminal m ∈ g.rhs p) : Reachable g m

/-- Every nonterminal that can be reached derives the empty text or a form that begins with a
terminal. This holds if every such nonterminal derives a text. -/
def Grounded (g : Grammar) : Prop :=
  ∀ n, Reachable g n → g.Vanishes [.nonterminal n] ∨ ∃ t, g.Begins t [.nonterminal n]

/-- What holds of the first core and is kept by reading over a symbol and by taking up the
productions of a nonterminal holds of all cores of the collection. -/
theorem closure_induction {P : List Symbol → Core → Prop} (hstart : P [] ⟨g.acceptProd, 0⟩)
    (hgoto : ∀ γ c x, P γ c → c.next? g = some x → Collection.accepts g c = false →
      P (γ ++ [x]) ⟨c.prod, c.dot + 1⟩)
    (hexpand : ∀ γ c n p, P γ c → c.next? g = some (.nonterminal n) → p ∈ g.prodsOf n →
      P γ ⟨p, 0⟩) {γ : List Symbol} {c : Core} (h : Closure g (kernelAfter g γ) c) : P γ c := by
  induction γ using List.reverseRecOn generalizing c with
  | nil =>
    induction h with
    | kernel hc =>
      rw [hc]
      exact hstart
    | expand _ hn hp ih => exact hexpand _ _ _ _ ih hn hp
  | append_singleton γ x ihγ =>
    induction h with
    | kernel hc =>
      rw [kernelAfter_append_singleton] at hc
      obtain ⟨b, hb, hnext, haccepts, rfl⟩ := hc
      exact hgoto γ b x (ihγ hb) hnext haccepts
    | expand _ hn hp ih => exact hexpand _ _ _ _ ih hn hp

/-- What stands before the dot has been read last, and in the first production nothing was read
before it. -/
theorem read_of_closure (hg : g.IsAugmented) {γ : List Symbol} {c : Core}
    (h : Closure g (kernelAfter g γ) c) : (g.rhs c.prod).take c.dot <:+ γ ∧
      (c.prod = g.acceptProd → γ = (g.rhs g.acceptProd).take c.dot) := by
  refine closure_induction (P := fun γ c => (g.rhs c.prod).take c.dot <:+ γ ∧
    (c.prod = g.acceptProd → γ = (g.rhs g.acceptProd).take c.dot)) ?_ ?_ ?_ h
  · exact ⟨List.suffix_refl _, fun _ => rfl⟩
  · rintro γ c x ⟨hsuffix, hfirst⟩ hx -
    have htake : (g.rhs c.prod).take (c.dot + 1) = (g.rhs c.prod).take c.dot ++ [x] := by
      rw [Core.next?, Core.rest, List.head?_drop] at hx
      rw [List.take_add_one, hx, Option.toList_some]
    refine ⟨?_, ?_⟩
    · obtain ⟨before, rfl⟩ := hsuffix
      exact ⟨before, by rw [htake, List.append_assoc]⟩
    · intro hprod
      rw [← hprod, htake, hprod, ← hfirst hprod]
  · rintro γ c n p - hn hp
    refine ⟨List.nil_suffix, ?_⟩
    intro hprod
    have hmem := mem_rhs_of_next? hn
    rw [← hg.lhs_of_mem_prodsOf n p hp, show p = g.acceptProd from hprod] at hmem
    exact absurd hmem (hg.fresh_start c.prod)

/-- All nonterminals in the productions of the collection can be reached. -/
theorem reachable_of_closure {γ : List Symbol} {c : Core} (h : Closure g (kernelAfter g γ) c) :
    ∀ m, .nonterminal m ∈ g.rhs c.prod → Reachable g m := by
  refine closure_induction (P := fun _ c => ∀ m, .nonterminal m ∈ g.rhs c.prod → Reachable g m)
    ?_ ?_ ?_ h
  · intro m hm
    exact .accept hm
  · intro γ c x ih _ _
    exact ih
  · intro γ c n p ih hn hp m hm
    exact .listed (ih n (mem_rhs_of_next? hn)) hp hm

/-- Symbols of which each vanishes or begins with a terminal, together with a terminal behind them,
begin with a terminal. -/
theorem exists_begins {xs : List Symbol} (t : Nat)
    (h : ∀ n, .nonterminal n ∈ xs → g.Vanishes [.nonterminal n] ∨
      ∃ t, g.Begins t [.nonterminal n]) : ∃ u, g.Begins u (xs ++ [.terminal t]) := by
  induction xs with
  | nil => exact ⟨t, .here []⟩
  | cons x xs ih =>
    cases x with
    | terminal u => exact ⟨u, .here _⟩
    | nonterminal n =>
      rcases h n List.mem_cons_self with hn | ⟨u, hu⟩
      · obtain ⟨u, hu⟩ := ih fun m hm => h m (List.mem_cons_of_mem _ hm)
        exact ⟨u, .behind hn hu⟩
      · have happend := Grammar.begins_append.2 (Or.inl hu : _ ∨ _ ∧ g.Begins u (xs ++ [.terminal t]))
        exact ⟨u, happend⟩

/-- In a grounded grammar every core of the collection belongs to a valid LR(1) item. -/
theorem exists_valid (hground : Grounded g) {γ : List Symbol} {c : Core}
    (h : Closure g (kernelAfter g γ) c) : ∃ t, Valid g γ c t := by
  refine (closure_induction (P := fun γ c => Closure g (kernelAfter g γ) c ∧ ∃ t, Valid g γ c t)
    ?_ ?_ ?_ h).2
  · exact ⟨.kernel rfl, g.eof, .start⟩
  · rintro γ c x ⟨hc, t, ht⟩ hx haccepts
    rw [kernelAfter_append_singleton]
    exact ⟨.kernel ⟨c, hc, hx, haccepts, rfl⟩, t, .goto ht hx⟩
  · rintro γ c n p ⟨hc, t, ht⟩ hn hp
    obtain ⟨u, hu⟩ := exists_begins t fun m hm => hground m
      (reachable_of_closure hc m (mem_rhs_of_mem_rest (c := ⟨c.prod, c.dot + 1⟩) hm))
    exact ⟨.expand hc hn hp, u,
      .closure ht (rest_of_next? hn) hp (Grammar.begins_iff_derives.1 hu)⟩

theorem Sees.valid (hground : Grounded g) {γ : List Symbol} {c : Core} {t : Nat}
    (h : Sees g γ c t) : Valid g γ c t := by
  induction h with
  | start => exact .start
  | begins hc hrest hp ht =>
    obtain ⟨u, hu⟩ := exists_valid hground hc
    refine .closure hu hrest hp (Grammar.begins_iff_derives.1 ?_)
    exact Grammar.begins_append_terminal.2 (Or.inl ht)
  | vanishes _ hrest hp hvanish ih =>
    refine .closure ih hrest hp (Grammar.begins_iff_derives.1 ?_)
    exact Grammar.begins_append_terminal.2 (Or.inr ⟨hvanish, rfl⟩)
  | goto _ hx _ ih => exact .goto ih hx

/-- In a grounded grammar the lookaheads are those of the valid LR(1) items. -/
theorem sees_iff_valid (hg : g.IsAugmented) (hground : Grounded g) {γ : List Symbol}
    (hγ : (kernelAfter g γ).Nonempty) {c : Core} {t : Nat} : Sees g γ c t ↔ Valid g γ c t :=
  ⟨Sees.valid hground, fun h => h.sees hg hγ⟩

end Canonical

end ShiftReduce
