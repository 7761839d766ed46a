import ShiftReduce.Proofs.Grammar.Sentence
import ShiftReduce.Proofs.Lalr.Machine

/-!
# Viable prefixes

What has been read, together with what an item still calls for, is the beginning of a form that the
start symbol derives (`Canonical.exists_derives_of_closure`). So in a productive grammar the words on a
stack are always the beginning of a sentence (`Tables.Stacked.isViable`).

The next terminal is another matter. `Canonical.MayFollow g γ a` says that some item after the symbols
`γ` is ready for the terminal `a`, and then `a` continues what `γ` derives
(`Canonical.MayFollow.continues`). A table entry is made for a state, though, and not for the symbols on
the stack. A terminal that is shifted or accepted may follow them, but for a reduction it is enough that
the terminal may follow some other symbols that lead to the same state (`Tables.Made.mayFollow`). If no
conflict had to be settled, the tables come by way of such symbols to the state
(`Tables.ConflictFree.exists_reaches`), so the entries of a state are those that are used for some
sentence (`Tables.ConflictFree.action_ne_error_iff`).
-/

namespace ShiftReduce

open Collection (walk)
open StateTransition (Reaches)

namespace Canonical

variable {g : Grammar} {γ : List Symbol} {c : Core} {a : Nat}

/-- The end of the input is not read, so the accepting production still calls for it. -/
theorem eof_mem_rest (hg : g.IsAugmented) (h : Closure g (kernelAfter g γ) c)
    (hprod : c.prod = g.acceptProd) : .terminal g.eof ∈ c.rest g := by
  refine closure_induction (P := fun _ c => c.prod = g.acceptProd → .terminal g.eof ∈ c.rest g)
    ?_ ?_ ?_ h hprod
  · intro _
    obtain ⟨s, hs⟩ := hg.rhs_acceptProd
    rw [Core.rest, List.drop_zero, hs]
    simp
  · intro γ c x ih hx haccepts hprod
    have hmem := ih hprod
    rw [rest_of_next? hx] at hmem
    rcases List.mem_cons.1 hmem with rfl | hmem
    · rw [accepts_of_next?_eof hg hx] at haccepts
      exact absurd haccepts (by simp)
    · exact hmem
  · intro γ c n p _ hn hp hprod
    have hmem := mem_rhs_of_next? hn
    rw [← hg.lhs_of_mem_prodsOf n p hp, show p = g.acceptProd from hprod] at hmem
    exact absurd hmem (hg.fresh_start c.prod)

/-- The end of the input is not among the symbols that can be read. -/
theorem eof_not_mem_of_nonempty (hg : g.IsAugmented) (h : (kernelAfter g γ).Nonempty) :
    .terminal g.eof ∉ γ := by
  induction γ using List.reverseRecOn with
  | nil => exact List.not_mem_nil
  | append_singleton γ x ih =>
    rw [kernelAfter_append_singleton] at h
    intro hmem
    rcases List.mem_append.1 hmem with hmem | hmem
    · exact ih (nonempty_of_goto h) hmem
    · rw [← List.mem_singleton.1 hmem, goto_eof hg] at h
      exact Set.not_nonempty_empty h

/-! ### Forms of the start symbol -/

/-- What has been read and what an item still calls for are the beginning of a form of the start
symbol. -/
theorem exists_derives_of_closure (hg : g.IsAugmented) (h : Closure g (kernelAfter g γ) c) :
    ∃ ρ, g.Derives (g.rhs g.acceptProd) (γ ++ (c.rest g ++ ρ)) := by
  refine closure_induction (P := fun γ c => ∃ ρ, g.Derives (g.rhs g.acceptProd)
    (γ ++ (c.rest g ++ ρ))) ?_ ?_ ?_ h
  · refine ⟨[], ?_⟩
    rw [List.nil_append, List.append_nil, Core.rest, List.drop_zero]
    exact .refl
  · rintro γ c x ⟨ρ, hρ⟩ hx -
    rw [rest_of_next? hx] at hρ
    refine ⟨ρ, ?_⟩
    rw [← List.append_cons]
    exact hρ
  · rintro γ c n p ⟨ρ, hρ⟩ hn hp
    obtain rfl := hg.lhs_of_mem_prodsOf n p hp
    rw [rest_of_next? hn] at hρ
    exact ⟨_, hρ.tail (.intro γ _ (hg.lt_of_mem_prodsOf _ p hp))⟩

/-- Behind what an item still calls for, its lookaheads may come. -/
theorem Sees.exists_derives (hg : g.IsAugmented) (h : Sees g γ c a) (hc : c.prod ≠ g.acceptProd) :
    ∃ ρ, g.Derives (g.rhs g.acceptProd) (γ ++ (c.rest g ++ .terminal a :: ρ)) := by
  induction h with
  | start => exact absurd rfl hc
  | @begins γ c a n p rest hclosure hrest hp ha =>
    obtain rfl := hg.lhs_of_mem_prodsOf n p hp
    obtain ⟨ρ, hρ⟩ := exists_derives_of_closure hg hclosure
    obtain ⟨ys, hys⟩ := Grammar.begins_iff_derives.1 ha
    rw [hrest] at hρ
    have hrewrites := hρ.tail (.intro γ _ (hg.lt_of_mem_prodsOf _ p hp))
    refine ⟨ys ++ ρ, hrewrites.trans ?_⟩
    exact ((hys.append_right ρ).append_left (g.rhs p)).append_left γ
  | @vanishes γ c a n p rest hsees hrest hp hvanish ih =>
    obtain rfl := hg.lhs_of_mem_prodsOf n p hp
    -- the accepting production has the end of the input behind its nonterminal
    have hne : c.prod ≠ g.acceptProd := by
      intro hprod
      have hmem := eof_mem_rest hg hsees.closure hprod
      rw [hrest] at hmem
      rcases List.mem_cons.1 hmem with heq | hmem
      · exact absurd heq (by simp)
      · exact Grammar.not_mem_of_vanishes hvanish hmem
    obtain ⟨ρ, hρ⟩ := ih hne
    rw [hrest] at hρ
    have hrewrites := hρ.tail (.intro γ _ (hg.lt_of_mem_prodsOf _ p hp))
    refine ⟨ρ, hrewrites.trans ?_⟩
    exact (((Grammar.vanishes_iff_derives.1 hvanish).append_right _).append_left (g.rhs p)).append_left γ
  | @goto γ c a x _ hx _ ih =>
    obtain ⟨ρ, hρ⟩ := ih hc
    rw [rest_of_next? hx] at hρ
    refine ⟨ρ, ?_⟩
    rw [← List.append_cons]
    exact hρ

/-! ### What may come next -/

/-- An item after the symbols `γ` is ready for the terminal `a`: what it calls for begins with it, or
vanishes and `a` is a lookahead. -/
def MayFollow (g : Grammar) (γ : List Symbol) (a : Nat) : Prop :=
  ∃ c, Closure g (kernelAfter g γ) c ∧ Expects g γ c (c.rest g) a

theorem Sees.mayFollow (h : Sees g γ c a) (hc : c.next? g = none) : MayFollow g γ a := by
  rw [Core.next?, List.head?_eq_none_iff] at hc
  exact ⟨c, h.closure, by rw [hc]; exact h.expects⟩

theorem mayFollow_of_next? (h : Closure g (kernelAfter g γ) c)
    (hc : c.next? g = some (.terminal a)) : MayFollow g γ a := by
  refine ⟨c, h, Or.inl ?_⟩
  rw [rest_of_next? hc]
  exact .here _

theorem MayFollow.nonempty (h : MayFollow g γ a) : (kernelAfter g γ).Nonempty := by
  obtain ⟨c, hc, -⟩ := h
  exact nonempty_of_closure hc

theorem MayFollow.exists_derives (hg : g.IsAugmented) (h : MayFollow g γ a) :
    ∃ ρ, g.Derives (g.rhs g.acceptProd) (γ ++ .terminal a :: ρ) := by
  obtain ⟨c, hc, hbegins | ⟨hvanishes, hsees⟩⟩ := h
  · obtain ⟨ρ, hρ⟩ := exists_derives_of_closure hg hc
    obtain ⟨ys, hys⟩ := Grammar.begins_iff_derives.1 hbegins
    exact ⟨ys ++ ρ, hρ.trans ((hys.append_right ρ).append_left γ)⟩
  · have hne : c.prod ≠ g.acceptProd := fun hprod =>
      Grammar.not_mem_of_vanishes hvanishes (eof_mem_rest hg hc hprod)
    obtain ⟨ρ, hρ⟩ := hsees.exists_derives hg hne
    refine ⟨ρ, hρ.trans ?_⟩
    exact ((Grammar.vanishes_iff_derives.1 hvanishes).append_right _).append_left γ

/-- What an item of the closure begins with, a kernel item begins with. -/
theorem exists_kernel_begins (hg : g.IsAugmented) {kernel : Set Core} (h : Closure g kernel c)
    (ha : g.Begins a (c.rest g)) : ∃ c' ∈ kernel, g.Begins a (c'.rest g) := by
  induction h with
  | kernel hc => exact ⟨_, hc, ha⟩
  | @expand c n p _ hn hp ih =>
    obtain rfl := hg.lhs_of_mem_prodsOf n p hp
    refine ih ?_
    rw [rest_of_next? hn]
    exact .inside _ (hg.lt_of_mem_prodsOf _ p hp) ha

/-- A lookahead behind nothing but symbols that vanish is what a kernel item is ready for. -/
theorem Sees.exists_kernel_expects (hg : g.IsAugmented) (h : Sees g γ c a)
    (hc : g.Vanishes (c.rest g)) : ∃ c' ∈ kernelAfter g γ, Expects g γ c' (c'.rest g) a := by
  have hsymbol : ∀ {n p}, p ∈ g.prodsOf n → g.Vanishes (Core.rest g ⟨p, 0⟩) →
      g.Vanishes [.nonterminal n] := fun hp hvanishes =>
    Grammar.vanishes_nonterminal_iff.2 ⟨_, hg.lt_of_mem_prodsOf _ _ hp, hg.lhs_of_mem_prodsOf _ _ hp,
      hvanishes⟩
  induction h with
  | start => exact ⟨_, rfl, Or.inr ⟨hc, .start⟩⟩
  | begins hclosure hrest hp ha =>
    obtain ⟨c', hc', hbegins⟩ := exists_kernel_begins hg hclosure
      (hrest ▸ Grammar.Begins.behind (hsymbol hp hc) ha)
    exact ⟨c', hc', Or.inl hbegins⟩
  | vanishes hsees hrest hp hvanish ih =>
    exact ih (hrest ▸ Grammar.vanishes_cons.2 ⟨hsymbol hp hc, hvanish⟩)
  | @goto γ c a x hsees hx haccepts _ =>
    refine ⟨⟨c.prod, c.dot + 1⟩, ?_, Or.inr ⟨hc, .goto hsees hx haccepts⟩⟩
    rw [kernelAfter_append_singleton]
    exact ⟨c, hsees.closure, hx, haccepts, rfl⟩

theorem MayFollow.exists_kernel (hg : g.IsAugmented) (h : MayFollow g γ a) :
    ∃ c ∈ kernelAfter g γ, Expects g γ c (c.rest g) a := by
  obtain ⟨c, hc, hbegins | ⟨hvanishes, hsees⟩⟩ := h
  · obtain ⟨c', hc', hbegins⟩ := exists_kernel_begins hg hc hbegins
    exact ⟨c', hc', Or.inl hbegins⟩
  · exact hsees.exists_kernel_expects hg hvanishes

/-- An item with something before its dot has the lookaheads that it had before. -/
theorem Sees.of_goto {x : Symbol} (h : Sees g (γ ++ [x]) ⟨c.prod, c.dot + 1⟩ a) : Sees g γ c a := by
  generalize hγ : γ ++ [x] = γ' at h
  generalize hd : (⟨c.prod, c.dot + 1⟩ : Core) = d at h
  cases h with
  | start => exact absurd hd (by simp)
  | begins => exact absurd hd (by simp)
  | vanishes => exact absurd hd (by simp)
  | @goto δ b _ _ h _ _ =>
    obtain ⟨rfl, -⟩ := List.append_inj' hγ rfl
    obtain rfl : c = b := by
      cases c
      cases b
      simpa using hd
    exact h

/-- What may follow after one more symbol is expected behind this symbol. -/
theorem MayFollow.exists_before (hg : g.IsAugmented) {x : Symbol} (h : MayFollow g (γ ++ [x]) a) :
    ∃ c ρ, Closure g (kernelAfter g γ) c ∧ c.rest g = x :: ρ ∧ Expects g γ c ρ a := by
  obtain ⟨c', hc', hexpects⟩ := h.exists_kernel hg
  rw [kernelAfter_append_singleton] at hc'
  obtain ⟨c, hc, hx, -, rfl⟩ := hc'
  refine ⟨c, _, hc, rest_of_next? hx, ?_⟩
  rcases hexpects with hbegins | ⟨hvanishes, hsees⟩
  · exact Or.inl hbegins
  · exact Or.inr ⟨hvanishes, hsees.of_goto⟩

/-- What may follow continues what the symbols derive. -/
theorem MayFollow.continues (hg : g.WellFormed) (hproductive : g.Productive)
    (h : MayFollow g.augment γ a) {ts : List Nat} (hts : g.Derives γ (ts.map .terminal)) :
    g.Continues ts a := by
  obtain ⟨ρ, hρ⟩ := h.exists_derives (Grammar.isAugmented_augment hg)
  exact Grammar.continues_of_derives hproductive (Grammar.derives_of_accept hg hρ) hts

end Canonical

/-- The roots of some derivation trees derive their words. -/
theorem derives_wordsOf {g : Grammar} {forest : List Tree}
    (h : ∀ tree ∈ forest, tree.IsDerivation g) :
    g.Derives (roots g forest) (((wordsOf forest).map Prod.fst).map .terminal) := by
  rw [roots, ← List.map_reverse, wordsOf]
  exact Tree.derives_frontierAll fun tree htree => (h tree (List.mem_reverse.1 htree)).derives

namespace Tables

variable {g : Grammar} {t : Tables} {γ : List Symbol} {i a : Nat} {stack stack' : List (Nat × Tree)}
  {forest : List Tree} {read left words : List Word} {reduced : List Nat} {s s' : Stage}

/-- In a productive grammar the words on a stack are the beginning of a sentence. -/
theorem Stacked.isViable {α : Type} {E : Tree → α → Prop} {stack : List (Nat × α)}
    (h : Stacked g E stack forest) (hg : g.WellFormed) (hproductive : g.Productive) :
    g.IsViable ((wordsOf forest).map Prod.fst) := by
  have hG := Grammar.isAugmented_augment hg
  have hne := kernelAfter_nonempty hg h.walk_topState
  have heof := Canonical.eof_not_mem_of_nonempty hG hne
  obtain ⟨c, hc⟩ := hne
  obtain ⟨ρ, hρ⟩ := Canonical.exists_derives_of_closure hG (.kernel hc)
  exact Grammar.isViable_of_derives hproductive (Grammar.derives_of_accept hg hρ) heof
    (derives_wordsOf h.isDerivation)

/-- An entry of a state is there because the terminal may follow some symbols that lead to the state. If
the entry is not a reduction, the terminal may follow all of them. -/
theorem Made.mayFollow (h : Made g t) (hg : g.WellFormed) (hwalk : walk (statesOf g) 0 γ = some i)
    (haction : t.actionAt i a ≠ .error) : ∃ δ, walk (statesOf g) 0 δ = some i ∧
      Canonical.MayFollow g.augment δ a ∧ ((∀ p, t.actionAt i a ≠ .reduce p) → δ = γ) := by
  have hG := Grammar.isAugmented_augment hg
  cases hact : t.actionAt i a with
  | error => exact absurd hact haction
  | shift j =>
    obtain ⟨s, hs, ho⟩ := h.offer_of_actionAt (o := .shift j) hact
    obtain ⟨-, -, c, hc, hnext⟩ := shift_offer_spec hg hwalk hs ho
    exact ⟨γ, hwalk, Canonical.mayFollow_of_next? hc hnext, fun _ => rfl⟩
  | reduce p =>
    obtain ⟨hp, -, δ, hδ, hsees⟩ := h.reduce_spec hg hwalk hact
    refine ⟨δ, hδ, hsees.mayFollow ?_, fun hreduce => absurd rfl (hreduce p)⟩
    rw [Core.next?, Core.rest, Grammar.rhs_augment hp, List.drop_length, List.head?_nil]
  | accept =>
    obtain ⟨rfl, rfl⟩ := h.accept_spec hg hwalk hact
    have hnext : Core.next? g.augment ⟨g.augment.acceptProd, 1⟩ = some (.terminal g.eof) :=
      Canonical.next?_of_accepts hG (Canonical.accepts_iff.2 ⟨rfl, rfl⟩)
    exact ⟨_, hwalk, Canonical.mayFollow_of_next? (closure_start hg) hnext, fun _ => rfl⟩

/-- A symbol that has been read is the root of a derivation tree. -/
theorem exists_tree_of_mayFollow (hg : g.WellFormed) (hproductive : g.Productive) {x : Symbol}
    (h : Canonical.MayFollow g.augment (γ ++ [x]) a) :
    ∃ tree : Tree, tree.IsDerivation g ∧ tree.root g = x := by
  obtain ⟨ρ, hρ⟩ := h.exists_derives (Grammar.isAugmented_augment hg)
  rw [List.append_assoc] at hρ
  obtain ⟨ts, hts⟩ := hproductive.exists_text (Grammar.derives_of_accept hg hρ)
  have hwords : (ts.map fun terminal => ((terminal, "") : Word)).map Prod.fst = ts := by
    simp [Function.comp_def]
  rw [← hwords] at hts
  obtain ⟨tree, htree, hroot, -⟩ := Tree.exists_tree_iff_derives.2 hts
  exact ⟨tree, htree, hroot⟩

/-! ### What comes later does not matter -/

theorem coming_append (hcoming : t.coming left = t.coming words) (read : List Word) :
    t.coming (read ++ left) = t.coming (read ++ words) := by
  cases read with
  | nil => exact hcoming
  | cons word read => rfl

/-- A shift looks at the word that it takes, and a reduction at the one that comes next. -/
theorem turn_swap (h : turn g t s = some s') :
    (∃ word, s.left = word :: s'.left ∧ ∀ left,
      turn g t ⟨s.stack, word :: left, s.reduced⟩ = some ⟨s'.stack, left, s'.reduced⟩) ∨
    s.left = s'.left ∧ ∀ left, t.coming left = t.coming s.left →
      turn g t ⟨s.stack, left, s.reduced⟩ = some ⟨s'.stack, left, s'.reduced⟩ := by
  rw [turn] at h
  split at h
  · next next haction =>
    split at h
    · next word left hleft =>
      obtain rfl := Option.some.inj h
      refine Or.inl ⟨word, hleft, fun left' => turn_shift ?_⟩
      rw [actionOf, hleft] at haction
      exact haction
    · exact absurd h (by simp)
  · next p haction =>
    obtain ⟨next, hnext, rfl⟩ := Option.map_eq_some_iff.1 h
    refine Or.inr ⟨rfl, fun left hcoming => ?_⟩
    have haction' : t.actionOf ⟨s.stack, left, s.reduced⟩ = .reduce p := by
      rw [← haction, actionOf, actionOf, hcoming]
    simp only [turn, haction', hnext, Option.map_some]
  · exact absurd h (by simp)
  · exact absurd h (by simp)

/-- A run does not depend on what stands behind the word that comes next at its end. -/
theorem exists_read_of_reaches (h : Reaches (turn g t) s s') : ∃ read, s.left = read ++ s'.left ∧
    ∀ left, t.coming left = t.coming s'.left →
      Reaches (turn g t) ⟨s.stack, read ++ left, s.reduced⟩ ⟨s'.stack, left, s'.reduced⟩ := by
  induction h using Relation.ReflTransGen.head_induction_on with
  | refl => exact ⟨[], rfl, fun _ _ => .refl⟩
  | head hturn _ ih =>
    obtain ⟨read, hread, hreaches⟩ := ih
    rcases turn_swap hturn with ⟨word, hleft, hswap⟩ | ⟨hleft, hswap⟩
    · refine ⟨word :: read, by rw [hleft, hread, List.cons_append], fun left hcoming => ?_⟩
      exact .head (hswap (read ++ left)) (hreaches left hcoming)
    · refine ⟨read, hleft.trans hread, fun left hcoming => ?_⟩
      refine .head (hswap (read ++ left) ?_) (hreaches left hcoming)
      rw [hleft, hread]
      exact coming_append hcoming read

namespace ConflictFree

/-- On the way to a tree of the words there is always something to be done. -/
theorem action_ne_error_of_parses (h : ConflictFree g t) {tree : Tree} (htree : tree.Parses g words)
    (hreaches : Reaches (turn g t) ⟨[], words, []⟩ s) : t.actionOf s ≠ .error := by
  intro herror
  obtain ⟨q, hend, haccept⟩ := h.reaches_tree htree
  have hstop : turn g t s = none := by rw [turn, herror]
  rw [end_unique hreaches hstop hend (turn_eq_none_of_accept haccept), haccept] at herror
  exact absurd herror (by simp)

/-- Behind words that a terminal continues there are words that begin with it and make up a sentence. -/
theorem exists_tree_of_continues (h : ConflictFree g t)
    (hcontinues : g.Continues (read.map Prod.fst) a) :
    ∃ left, (∃ tree : Tree, tree.Parses g (read ++ left)) ∧ t.coming left = a := by
  obtain ⟨rest, hrest, rfl⟩ := hcontinues.exists_sentence
  refine ⟨rest.map fun terminal => (terminal, ""), Grammar.isSentence_iff_exists_parses.1 ?_, ?_⟩
  · simpa [Function.comp_def] using hrest
  · rw [coming, h.eof]
    cases rest with
    | nil => rfl
    | cons _ _ => rfl

/-- What continues the words that have been read has an action, if they are read before it. -/
theorem action_ne_error_of_continues (h : ConflictFree g t)
    (hcontinues : g.Continues (read.map Prod.fst) a)
    (hreaches : ∀ left, t.coming left = a →
      Reaches (turn g t) ⟨[], read ++ left, []⟩ ⟨stack, left, reduced⟩) :
    t.actionAt (topState stack) a ≠ .error := by
  obtain ⟨left, ⟨tree, htree⟩, rfl⟩ := h.exists_tree_of_continues hcontinues
  exact h.action_ne_error_of_parses htree (hreaches left rfl)

/-- Where the tables refuse, the words that have been read are the beginning of a sentence and what
comes next does not continue them. -/
theorem stuck_at_mistake (h : ConflictFree g t) (hproductive : g.Productive)
    (hreaches : Reaches (turn g t) ⟨[], words, []⟩ s) (haction : t.actionOf s = .error) :
    ∃ read, words = read ++ s.left ∧ g.IsViable (read.map Prod.fst) ∧
      ¬ g.Continues (read.map Prod.fst) (t.coming s.left) := by
  obtain ⟨read, rfl, hswap⟩ := exists_read_of_reaches hreaches
  refine ⟨read, rfl, ?_, ?_⟩
  · obtain ⟨forest, hstack, hwords⟩ := h.stacked_of_reaches h.wellFormed .nil hreaches
    obtain rfl : wordsOf forest = read := List.append_cancel_right hwords
    exact hstack.isViable h.wellFormed hproductive
  · intro hcontinues
    exact h.action_ne_error_of_continues hcontinues hswap haction

/-- If a terminal may follow some symbols, the tables read words of these symbols before it. -/
theorem exists_reaches (h : ConflictFree g t) (hproductive : g.Productive)
    (hγ : Canonical.MayFollow g.augment γ a) : ∃ forest : List Tree, roots g forest = γ ∧
      ∀ left, t.coming left = a → ∃ stack reduced,
        Reaches (turn g t) ⟨[], wordsOf forest ++ left, []⟩ ⟨stack, left, reduced⟩ ∧
          Stacked g Eq stack forest := by
  have hG := h.isAugmented
  induction γ using List.reverseRecOn generalizing a with
  | nil => exact ⟨[], rfl, fun left _ => ⟨[], [], .refl, .nil⟩⟩
  | append_singleton γ x ih =>
    obtain ⟨c, ρ, hc, hrest, hexpects⟩ := hγ.exists_before hG
    obtain ⟨tree, htree, rfl⟩ := exists_tree_of_mayFollow h.wellFormed hproductive hγ
    have hne : tree.root g ≠ .terminal g.eof := by
      intro heq
      have heof := Canonical.eof_not_mem_of_nonempty hG hγ.nonempty
      exact heof (List.mem_append_right _ (List.mem_singleton.2 heq.symm))
    -- the first word of the tree may come before it, or `a` if the tree has no words
    have hcoming : t.coming [(a, "")] = a := rfl
    have hbefore := expects_frontier htree.opens (hcoming.symm ▸ hexpects)
    rw [List.singleton_append, ← hrest] at hbefore
    obtain ⟨forest, rfl, hforest⟩ := ih ⟨c, hc, hbefore⟩
    refine ⟨tree :: forest, roots_cons g tree forest, fun left hleft => ?_⟩
    obtain ⟨stack, reduced, hreaches, hstack⟩ :=
      hforest (tree.frontier ++ left) (coming_append (hleft.trans hcoming.symm) _)
    obtain ⟨q, hreaches', hstack'⟩ :=
      h.found htree hne stack forest c ρ left reduced hstack hc hrest (hleft.symm ▸ hexpects)
    refine ⟨(q, tree) :: stack, reduced ++ tree.reductions, ?_, hstack'⟩
    rw [wordsOf_cons, List.append_assoc]
    exact hreaches.trans hreaches'

/-- The entries of a state are those that are used for some sentence. -/
theorem action_ne_error_iff (h : ConflictFree g t) (hproductive : g.Productive)
    (hwalk : walk (statesOf g) 0 γ = some i) : t.actionAt i a ≠ .error ↔
      ∃ (words : List Word) (tree : Tree) (s : Stage), tree.Parses g words ∧
        Reaches (turn g t) ⟨[], words, []⟩ s ∧ topState s.stack = i ∧ t.coming s.left = a := by
  constructor
  · intro haction
    obtain ⟨δ, hδ, hmay, -⟩ := h.mayFollow h.wellFormed hwalk haction
    obtain ⟨forest, rfl, hforest⟩ := h.exists_reaches hproductive hmay
    obtain ⟨_, _, -, hstack⟩ := hforest [(a, "")] rfl
    obtain ⟨left, ⟨tree, htree⟩, hcoming⟩ := h.exists_tree_of_continues
      (hmay.continues h.wellFormed hproductive (derives_wordsOf hstack.isDerivation))
    obtain ⟨stack, reduced, hreaches, hstack⟩ := hforest left hcoming
    refine ⟨_, tree, _, htree, hreaches, ?_, hcoming⟩
    exact Option.some.inj (hstack.walk_topState.symm.trans hδ)
  · rintro ⟨words, tree, s, htree, hreaches, rfl, rfl⟩
    exact h.action_ne_error_of_parses htree hreaches

end ConflictFree

end Tables

end ShiftReduce
