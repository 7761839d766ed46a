import ShiftReduce.Proofs.Grammar.Tree
import ShiftReduce.Proofs.Grammar.WellFormed

/-!
# Sentences

The sentences of a grammar are the lists of terminals that its start symbol derives. They are the
terminals at the leaves of the derivation trees (`Grammar.isSentence_iff_exists_parses`), whose texts do
not matter. Some terminals are viable if a sentence begins with them, and a terminal continues them if
they are still viable with it; the end of the input continues sentences (`Grammar.Continues`).

A grammar is productive if every nonterminal that its sentential forms mention derives some terminals.
Then every piece of a sentential form does (`Grammar.Productive.exists_text`).
-/

namespace ShiftReduce

namespace Grammar

variable {g : Grammar}

/-- The start symbol derives the terminals. -/
def IsSentence (g : Grammar) (ts : List Nat) : Prop :=
  g.Derives [.nonterminal g.start] (ts.map .terminal)

/-- A sentence begins with the terminals. -/
def IsViable (g : Grammar) (ts : List Nat) : Prop := ∃ rest, g.IsSentence (ts ++ rest)

/-- After the terminals `ts` the terminal `t` may come: it is the end of the input and they are a
sentence, or a sentence begins with all of them. -/
def Continues (g : Grammar) (ts : List Nat) (t : Nat) : Prop :=
  t = g.eof ∧ g.IsSentence ts ∨ g.IsViable (ts ++ [t])

/-- Every nonterminal in a form that the start symbol derives derives some terminals. -/
def Productive (g : Grammar) : Prop :=
  ∀ before n after, g.Derives [.nonterminal g.start] (before ++ .nonterminal n :: after) →
    ∃ ts : List Nat, g.Derives [.nonterminal n] (ts.map .terminal)

/-! ### Pieces of sentential forms -/

theorem Derives.append {xs xs' ys ys' : List Symbol} (h : g.Derives xs ys) (h' : g.Derives xs' ys') :
    g.Derives (xs ++ xs') (ys ++ ys') :=
  (h.append_right xs').trans (h'.append_left ys)

/-- A symbol that has been derived was there before or stands in a production. -/
theorem mem_of_derives {xs ys : List Symbol} (h : g.Derives xs ys) {x : Symbol} (hx : x ∈ ys) :
    x ∈ xs ∨ ∃ p, x ∈ g.rhs p := by
  induction h with
  | refl => exact Or.inl hx
  | tail _ hstep ih =>
    cases hstep with
    | @intro before after p hp =>
      rcases List.mem_append.1 hx with hx | hx
      · exact ih (List.mem_append_left _ hx)
      · rcases List.mem_append.1 hx with hx | hx
        · exact Or.inr ⟨p, hx⟩
        · exact ih (List.mem_append_right _ (List.mem_cons_of_mem _ hx))

/-- Symbols of which each nonterminal derives some terminals derive some terminals. -/
theorem exists_text_of_forall {xs : List Symbol} (h : ∀ n, .nonterminal n ∈ xs →
    ∃ ts : List Nat, g.Derives [.nonterminal n] (ts.map .terminal)) :
    ∃ ts : List Nat, g.Derives xs (ts.map .terminal) := by
  induction xs with
  | nil => exact ⟨[], .refl⟩
  | cons x xs ih =>
    obtain ⟨rest, hrest⟩ := ih fun n hn => h n (List.mem_cons_of_mem _ hn)
    obtain ⟨first, hfirst⟩ : ∃ ts : List Nat, g.Derives [x] (ts.map .terminal) := by
      cases x with
      | nonterminal n => exact h n List.mem_cons_self
      | terminal t => exact ⟨[t], .refl⟩
    refine ⟨first ++ rest, ?_⟩
    rw [List.map_append]
    exact hfirst.append hrest

/-- A nonterminal derives some terminals if those in one of its productions do. -/
theorem exists_text_of_rhs {p : Nat} (hp : p < g.prods.size) (h : ∀ n, .nonterminal n ∈ g.rhs p →
    ∃ ts : List Nat, g.Derives [.nonterminal n] (ts.map .terminal)) :
    ∃ ts : List Nat, g.Derives [.nonterminal (g.lhs p)] (ts.map .terminal) := by
  obtain ⟨ts, hts⟩ := exists_text_of_forall h
  refine ⟨ts, (derives_rhs hp []).trans ?_⟩
  rwa [List.append_nil]

/-- A grammar of which every nonterminal derives some terminals is productive. -/
theorem WellFormed.productive (hg : g.WellFormed) (h : ∀ n < g.nts.size,
    ∃ ts : List Nat, g.Derives [.nonterminal n] (ts.map .terminal)) : g.Productive := by
  intro before n after hderives
  refine h n ?_
  rcases mem_of_derives hderives (List.mem_append_right _ List.mem_cons_self) with hmem | ⟨p, hmem⟩
  · rw [Symbol.nonterminal.inj (List.mem_singleton.1 hmem)]
    exact hg.start_lt
  · exact hg.nonterminal_lt p n hmem

/-! ### The end of the input -/

/-- In a form that is derived from the start symbol and the end of the input, the end of the input
comes last. -/
theorem exists_of_derives_eof {ys : List Symbol}
    (h : g.Derives [.nonterminal g.start, .terminal g.eof] ys) :
    ∃ zs, ys = zs ++ [.terminal g.eof] ∧ g.Derives [.nonterminal g.start] zs := by
  induction h with
  | refl => exact ⟨[.nonterminal g.start], rfl, .refl⟩
  | tail _ hstep ih =>
    obtain ⟨zs, hzs, hderives⟩ := ih
    cases hstep with
    | intro before after hp =>
      rcases List.eq_nil_or_concat after with rfl | ⟨init, last, rfl⟩
      · -- the nonterminal that is rewritten is not the last symbol
        exact absurd (List.append_inj' hzs rfl).2 (by simp)
      · rw [List.concat_eq_append] at hzs ⊢
        obtain ⟨rfl, hlast⟩ : before ++ .nonterminal (g.lhs _) :: init = zs ∧
            [last] = [.terminal g.eof] := by
          rw [← List.cons_append, ← List.append_assoc] at hzs
          exact List.append_inj' hzs rfl
        refine ⟨before ++ (g.rhs _ ++ init), ?_, hderives.tail (.intro before init hp)⟩
        rw [hlast]
        simp

/-- If such a form is split, either there is nothing in the second part, or the end of the input comes
last in it. -/
theorem split_of_derives_eof {xs ys : List Symbol}
    (h : g.Derives [.nonterminal g.start, .terminal g.eof] (xs ++ ys)) :
    (∃ zs, ys = [] ∧ xs = zs ++ [.terminal g.eof] ∧ g.Derives [.nonterminal g.start] zs) ∨
    ∃ init, ys = init ++ [.terminal g.eof] ∧ g.Derives [.nonterminal g.start] (xs ++ init) := by
  obtain ⟨zs, hzs, hderives⟩ := exists_of_derives_eof h
  rcases List.eq_nil_or_concat ys with rfl | ⟨init, last, rfl⟩
  · rw [List.append_nil] at hzs
    exact Or.inl ⟨zs, rfl, hzs, hderives⟩
  · rw [List.concat_eq_append] at hzs ⊢
    rw [← List.append_assoc] at hzs
    obtain ⟨rfl, hlast⟩ := List.append_inj' hzs rfl
    exact Or.inr ⟨init, by rw [hlast], hderives⟩

/-- In a productive grammar every piece of a form of the start symbol, with the end of the input behind
it, derives some terminals. -/
theorem Productive.exists_text (hg : g.Productive) {before xs after : List Symbol}
    (h : g.Derives [.nonterminal g.start, .terminal g.eof] (before ++ (xs ++ after))) :
    ∃ ts : List Nat, g.Derives xs (ts.map .terminal) := by
  refine exists_text_of_forall fun n hn => ?_
  obtain ⟨left, right, rfl⟩ := List.append_of_mem hn
  rw [List.append_assoc, List.cons_append, ← List.append_assoc, List.append_cons] at h
  rcases split_of_derives_eof h with ⟨zs, -, heq, -⟩ | ⟨init, -, hderives⟩
  · exact absurd (List.append_inj' heq rfl).2 (by simp)
  · rw [← List.append_cons] at hderives
    exact hg _ n init hderives

/-- The end of the input is in no form that the start symbol derives. -/
theorem WellFormed.eof_not_mem_of_derives (hg : g.WellFormed) {ys : List Symbol}
    (h : g.Derives [.nonterminal g.start] ys) : .terminal g.eof ∉ ys := by
  intro hmem
  rcases mem_of_derives h hmem with hmem | ⟨p, hmem⟩
  · exact absurd (List.mem_singleton.1 hmem) (by simp)
  · exact hg.eof_not_mem p hmem

/-- The end of the input continues the sentences. -/
theorem continues_eof_iff (hg : g.WellFormed) {ts : List Nat} :
    g.Continues ts g.eof ↔ g.IsSentence ts := by
  refine ⟨fun h => ?_, fun h => Or.inl ⟨rfl, h⟩⟩
  rcases h with ⟨-, h⟩ | ⟨rest, h⟩
  · exact h
  · refine absurd (List.mem_map_of_mem ?_) (hg.eof_not_mem_of_derives h)
    simp

/-- What the grammar with the new production derives from the symbols of the old one, the old one
derives as well. -/
theorem derives_of_derives_augment (hg : g.WellFormed) {xs ys : List Symbol}
    (hxs : .nonterminal g.nts.size ∉ xs) (h : g.augment.Derives xs ys) : g.Derives xs ys := by
  have hfresh : ∀ {zs}, g.augment.Derives xs zs → .nonterminal g.nts.size ∉ zs := by
    intro zs hzs hmem
    rcases mem_of_derives hzs hmem with hmem | ⟨p, hmem⟩
    · exact hxs hmem
    · have hnew := (isAugmented_augment hg).fresh_start p
      rw [acceptProd_augment, lhs_augment_size] at hnew
      exact hnew hmem
  induction h with
  | refl => exact .refl
  | tail hprev hstep ih =>
    refine ih.tail ?_
    cases hstep with
    | @intro before after p hp =>
      -- the new nonterminal is not there to be rewritten
      have hlt : p < g.prods.size := by
        rw [size_prods_augment] at hp
        refine Nat.lt_of_le_of_ne (Nat.lt_succ_iff.1 hp) ?_
        rintro rfl
        refine hfresh hprev ?_
        rw [lhs_augment_size]
        simp
      rw [lhs_augment hlt, rhs_augment hlt]
      exact .intro before after hlt

/-- What the new production derives. -/
theorem derives_of_accept (hg : g.WellFormed) {ys : List Symbol}
    (h : g.augment.Derives (g.augment.rhs g.augment.acceptProd) ys) :
    g.Derives [.nonterminal g.start, .terminal g.eof] ys := by
  rw [acceptProd_augment, rhs_augment_size] at h
  refine derives_of_derives_augment hg ?_ h
  have hne := Nat.ne_of_gt hg.start_lt
  simpa using hne

/-- The symbols of a form after which the end of the input stands are derived from the start symbol. -/
theorem isViable_of_derives (hg : g.Productive) {xs ys : List Symbol} {ts : List Nat}
    (h : g.Derives [.nonterminal g.start, .terminal g.eof] (xs ++ ys)) (heof : .terminal g.eof ∉ xs)
    (hts : g.Derives xs (ts.map .terminal)) : g.IsViable ts := by
  rcases split_of_derives_eof h with ⟨zs, -, rfl, -⟩ | ⟨init, rfl, hderives⟩
  · exact absurd (List.mem_append_right _ List.mem_cons_self) heof
  · obtain ⟨rest, hrest⟩ := hg.exists_text h
    refine ⟨rest, ?_⟩
    rw [IsSentence, List.map_append]
    exact hderives.trans (hts.append hrest)

/-- A terminal that follows some symbols in such a form continues what they derive. -/
theorem continues_of_derives (hg : g.Productive) {xs ys : List Symbol} {ts : List Nat} {t : Nat}
    (h : g.Derives [.nonterminal g.start, .terminal g.eof] (xs ++ .terminal t :: ys))
    (hts : g.Derives xs (ts.map .terminal)) : g.Continues ts t := by
  rw [List.append_cons] at h
  rcases split_of_derives_eof h with ⟨zs, -, heq, hderives⟩ | ⟨init, rfl, hderives⟩
  · obtain ⟨rfl, heof⟩ := List.append_inj' heq rfl
    exact Or.inl ⟨Symbol.terminal.inj (List.singleton_inj.1 heof), hderives.trans hts⟩
  · obtain ⟨rest, hrest⟩ := hg.exists_text h
    refine Or.inr ⟨rest, ?_⟩
    rw [← List.append_cons] at hderives
    rw [IsSentence, List.append_assoc, List.map_append]
    exact hderives.trans (hts.append (hrest.append_left [.terminal t]))

/-- What continues some terminals is what comes next in a sentence that begins with them. -/
theorem Continues.exists_sentence {ts : List Nat} {t : Nat} (h : g.Continues ts t) :
    ∃ rest, g.IsSentence (ts ++ rest) ∧ rest.head?.getD g.eof = t := by
  rcases h with ⟨rfl, h⟩ | ⟨rest, h⟩
  · exact ⟨[], by rwa [List.append_nil], rfl⟩
  · exact ⟨t :: rest, by rwa [List.append_cons], rfl⟩

end Grammar

/-! ### Derivation trees -/

namespace Tree

variable {g : Grammar} {tree : Tree} {trees : List Tree}

theorem derives_frontierAll (h : ∀ tree ∈ trees,
    g.Derives [tree.root g] ((tree.frontier.map Prod.fst).map .terminal)) :
    g.Derives (trees.map (root g)) (((frontierAll trees).map Prod.fst).map .terminal) := by
  induction trees with
  | nil => exact .refl
  | cons tree trees ih =>
    obtain ⟨htree, htrees⟩ := List.forall_mem_cons.1 h
    rw [frontierAll, List.map_append, List.map_append]
    exact htree.append (ih htrees)

/-- The root of a derivation tree derives its words. -/
theorem IsDerivation.derives (h : tree.IsDerivation g) :
    g.Derives [tree.root g] ((tree.frontier.map Prod.fst).map .terminal) := by
  induction h with
  | leaf word => exact .refl
  | @node prod children hprod hroots _ ih =>
    refine (Grammar.derives_rhs hprod []).trans ?_
    rw [List.append_nil, ← hroots, frontier]
    exact derives_frontierAll ih

/-- What some symbols derive are the words of derivation trees with these symbols as their roots. -/
theorem exists_trees_of_derives {xs : List Symbol} {words : List Word}
    (h : g.Derives xs ((words.map Prod.fst).map .terminal)) : ∃ trees : List Tree,
      (∀ tree ∈ trees, tree.IsDerivation g) ∧ trees.map (root g) = xs ∧
        frontierAll trees = words := by
  induction h using Relation.ReflTransGen.head_induction_on with
  | refl =>
    refine ⟨words.map leaf, ?_, by simp [Function.comp_def, root], ?_⟩
    · intro tree htree
      obtain ⟨word, -, rfl⟩ := List.mem_map.1 htree
      exact .leaf word
    · induction words with
      | nil => rfl
      | cons word words ih => rw [List.map_cons, frontierAll, ih, frontier, List.singleton_append]
  | head hstep _ ih =>
    cases hstep with
    | @intro before after p hp =>
      -- the trees of the right-hand side become the children of one tree
      obtain ⟨trees, htrees, hroots, hwords⟩ := ih
      obtain ⟨left, trees, rfl, hleft, hroots⟩ := List.map_eq_append_iff.1 hroots
      obtain ⟨children, right, rfl, hchildren, hright⟩ := List.map_eq_append_iff.1 hroots
      simp only [List.mem_append] at htrees
      refine ⟨left ++ node p children :: right, ?_, ?_, ?_⟩
      · simp only [List.mem_append, List.mem_cons]
        rintro tree (htree | rfl | htree)
        · exact htrees tree (Or.inl htree)
        · exact .node hp hchildren fun child hchild => htrees child (Or.inr (Or.inl hchild))
        · exact htrees tree (Or.inr (Or.inr htree))
      · rw [List.map_append, List.map_cons, hleft, hright, root]
      · rw [← hwords, frontierAll_append, frontierAll, frontier, frontierAll_append,
          frontierAll_append]

/-- A symbol derives some words exactly if it is the root of a derivation tree with these words. -/
theorem exists_tree_iff_derives {x : Symbol} {words : List Word} :
    (∃ tree : Tree, tree.IsDerivation g ∧ tree.root g = x ∧ tree.frontier = words) ↔
      g.Derives [x] ((words.map Prod.fst).map .terminal) := by
  constructor
  · rintro ⟨tree, htree, rfl, rfl⟩
    exact htree.derives
  · intro h
    obtain ⟨trees, htrees, hroots, hwords⟩ := exists_trees_of_derives h
    obtain ⟨tree, rfl, hroot⟩ := List.map_eq_singleton_iff.1 hroots
    rw [frontierAll_singleton] at hwords
    exact ⟨tree, htrees tree List.mem_cons_self, hroot, hwords⟩

end Tree

/-- The sentences are the terminals at the leaves of the derivation trees of the start symbol. -/
theorem Grammar.isSentence_iff_exists_parses {g : Grammar} {words : List Word} :
    g.IsSentence (words.map Prod.fst) ↔ ∃ tree : Tree, tree.Parses g words :=
  Tree.exists_tree_iff_derives.symm

end ShiftReduce
