import ShiftReduce.Proofs.Lalr.Grouping
import ShiftReduce.Proofs.Parser.Completeness

/-!
# Precedence groups expressions

The statement about infix operators as a whole (`Draft.Operators.parse_grouped`): declarations of
expressions make a grammar and its tables, the tables and the parsers of the grammar find the tree that
is grouped by precedence and associativity, and they refuse what has no such tree.
-/

namespace ShiftReduce

open StateTransition (Reaches)
open Tables (turn)

/-- What precedence promises. Declarations of expressions, in any order, make a grammar, and its tables
are built. No words have two grouped derivation trees. The tables come to an end on all words, and they
accept them exactly if they have a grouped derivation tree, which is then the one on the stack. And every
parser of the grammar comes to an end on every input. If its tokens have a grouped tree, the parser does
not recover from anything and conforms to the tree. If they have none, and the terminal for wrong input is
no symbol of the expressions, it ends with a syntax error or a refusal. -/
theorem Draft.Operators.parse_grouped {d : Draft} {atom : Nat} {ops : List Nat}
    (h : d.Operators atom ops) : ∃ g t, d.build 0 = .ok g ∧ Tables.build g = .ok t ∧
      (∀ (words : List Word) (tree tree' : Tree), tree.Parses g words → tree.Grouped d.Takes →
        tree'.Parses g words → tree'.Grouped d.Takes → tree = tree') ∧
      (∀ words : List Word, (∀ word ∈ words, word.1 ≠ g.eof) → ∃ s,
        Reaches (turn g t) ⟨[], words, []⟩ s ∧ turn g t s = none ∧
        (t.actionOf s = .accept ∨ t.actionOf s = .error) ∧
        (t.actionOf s = .accept ↔ ∃ tree : Tree, tree.Parses g words ∧ tree.Grouped d.Takes) ∧
        ∀ tree : Tree, tree.Parses g words → tree.Grouped d.Takes →
          s.trees = [tree] ∧ s.left = [] ∧ s.reduced = tree.reductions) ∧
      ∀ (α : Type) (b : Blueprint α) (p : Parser α), b.Declared → b.build = .ok p → p.grammar = g →
        ∀ input, ∃ o, p.Ends input o ∧ ∀ tokens : List Token,
          p.lexer.tokens input = tokens.map .ok ++
            [.ok ⟨g.eof, "", input.utf8ByteSize, input.utf8ByteSize⟩] →
          (∀ tree : Tree, tree.Parses g (tokens.map Token.word) → tree.Grouped d.Takes →
            Parser.Smooth o.moves ∧ p.Conforms tree [] o) ∧
          ((∀ e, g.error = some e → e ∉ atom :: ops) →
            (¬ ∃ tree : Tree, tree.Parses g (tokens.map Token.word) ∧ tree.Grouped d.Takes) →
            ∃ e, o.result = .error e ∧ (e.IsSyntax ∨ e.IsRefusal)) := by
  obtain ⟨g, hbuild, hg⟩ := h.exists_build
  obtain ⟨t, ht⟩ := hg.exists_tables
  have hmade := Tables.made_of_build ht
  rw [h.declared.takes_eq hbuild]
  refine ⟨g, t, hbuild, ht, ?_, fun words hwords => hg.accept_iff hmade hwords, ?_⟩
  · intro words tree tree' hparses hgrouped hparses' hgrouped'
    exact hg.tree_unique hmade hparses hgrouped hparses' hgrouped'
  · rintro α b p hb hp rfl input
    have hproper := hb.proper hp
    obtain rfl : p.tables = t := Except.ok.inj (hproper.tables.symm.trans ht)
    obtain ⟨o, ho⟩ := hproper.exists_ends_of_halts (hg.halts hmade) input
    refine ⟨o, ho, fun tokens htokens => ⟨?_, ?_⟩⟩
    · intro tree hparses hgrouped
      obtain ⟨q, hreaches, haccept⟩ := hg.reaches_accept hmade hparses hgrouped
      obtain ⟨o', ho', hconforms⟩ := hproper.exists_ends_of_accept htokens rfl hreaches haccept
      rw [ho.unique ho']
      exact hconforms
    · intro hunused hnone
      have hwords := hproper.words_ne_eof htokens
      obtain ⟨s, hreaches, -, haction, haccept, -⟩ := hg.accept_iff hmade hwords
      have hunused' : ∀ e, p.grammar.error = some e → ∀ prod, .terminal e ∉ p.grammar.rhs prod :=
        fun e he prod hmem => hunused e he (hg.mem_of_mem_rhs hmem)
      obtain ⟨o', e, ho', hresult, he⟩ := hproper.exists_ends_of_error htokens rfl hunused' hreaches
        (haction.resolve_left fun hacc => hnone (haccept.1 hacc))
      rw [ho.unique ho']
      exact ⟨e, hresult, he⟩

/-! ### A comparison, a sum and a power -/

/-- Declarations for a parser of expressions over `n` with a comparison that does not associate, two
operators that associate to the left, and one of a higher group that associates to the right. The value
of an expression shows how it is grouped. -/
def Blueprint.arithmetic : Blueprint String :=
  let b : Blueprint String := .empty
  let b := (b.terminal "n" id).1
  let b := (b.precGroup .none [.literal "<"]).1
  let b := (b.nonterminal "E").1
  let b := (b.production 0 [.nonterminal 0, .terminal (.literal "^"), .nonterminal 0]).1
  let b := (b.production 0 [.nonterminal 0, .terminal (.literal "<"), .nonterminal 0]).1
  let b := (b.precGroup .left [.literal "+", .literal "-"]).1
  let b := (b.production 0 [.terminal (.declared 0)]).1
  let b := (b.precGroup .right [.literal "^"]).1
  let b := (b.production 0 [.nonterminal 0, .terminal (.literal "-"), .nonterminal 0]).1
  let b := (b.production 0 [.nonterminal 0, .terminal (.literal "+"), .nonterminal 0]).1
  let enclose : Rule String := .apply fun values => .ok ("(" ++ String.join values ++ ")")
  let b := (((b.setRule 0 enclose).setRule 1 enclose).setRule 3 enclose).setRule 4 enclose
  b.setLiteralValue id

theorem Blueprint.declared_arithmetic : Blueprint.arithmetic.Declared := by
  refine .setLiteralValue (.setRule (.setRule (.setRule (.setRule (.production (.production
    (.precGroup (.production (.precGroup (.production (.production ?_ _ _) _ _) _ _) _ _) _ _)
    _ _) _ _) _ _) _ _) _ _) _ _) _
  exact .nonterminal (.precGroup (.terminal .empty _ _) _ _) _

theorem Blueprint.draft_arithmetic : Blueprint.arithmetic.draft.terminals.size = 5 ∧
    Blueprint.arithmetic.draft.nts = #[⟨"E", [0, 1, 2, 3, 4]⟩] ∧
    Blueprint.arithmetic.draft.prods = #[Draft.binaryProd 2, Draft.binaryProd 1, Draft.atomProd 0,
      Draft.binaryProd 4, Draft.binaryProd 3] ∧
    Blueprint.arithmetic.draft.precs = #[⟨.none, 0⟩, ⟨.left, 1⟩, ⟨.right, 2⟩] ∧
    Blueprint.arithmetic.draft.members = [(0, 1), (1, 3), (1, 4), (2, 2)] := by
  decide +kernel

theorem Blueprint.operators_arithmetic : Blueprint.arithmetic.draft.Operators 0 [1, 2, 3, 4] := by
  obtain ⟨hterminals, hnts, hprods, -, hmembers⟩ := Blueprint.draft_arithmetic
  refine
    { declared := Blueprint.declared_arithmetic.draft
      one := by rw [hnts]; rfl
      prods := by rw [hprods]; decide
      listed := by rw [hprods, hnts]; decide
      distinct := by decide
      known := by rw [hterminals]; decide
      grouped := ?_
      members := by rw [hmembers, hterminals]; decide
      once := by rw [hmembers]; decide }
  rw [hmembers]
  intro op hop
  simp only [List.mem_cons, List.not_mem_nil, or_false] at hop
  rcases hop with rfl | rfl | rfl | rfl
  · exact ⟨0, by decide⟩
  · exact ⟨2, by decide⟩
  · exact ⟨1, by decide⟩
  · exact ⟨1, by decide⟩

namespace Tree

variable {g : Grammar}

theorem parses_atom {prod : Nat} {word : Word} (hprod : prod < g.prods.size)
    (hlhs : g.lhs prod = g.start) (hrhs : g.rhs prod = [.terminal word.1]) :
    Tree.Parses g (.node prod [.leaf word]) [word] := by
  refine ⟨.node hprod hrhs.symm ?_, congrArg Symbol.nonterminal hlhs, rfl⟩
  rintro child hchild
  rw [List.mem_singleton.1 hchild]
  exact .leaf word

theorem Parses.binary {prod : Nat} {op : Word} {left right : Tree} {words words' : List Word}
    (hleft : left.Parses g words) (hright : right.Parses g words') (hprod : prod < g.prods.size)
    (hlhs : g.lhs prod = g.start) (hrhs : g.rhs prod = g.binary op.1) :
    Tree.Parses g (.node prod [left, .leaf op, right]) (words ++ op :: words') := by
  obtain ⟨hderives, hroot, rfl⟩ := hleft
  obtain ⟨hderives', hroot', rfl⟩ := hright
  refine ⟨.node hprod ?_ ?_, congrArg Symbol.nonterminal hlhs, ?_⟩
  · rw [hrhs, Grammar.binary, List.map_cons, List.map_cons, List.map_cons, hroot, hroot']
    rfl
  · simp only [List.mem_cons, List.not_mem_nil, or_false]
    rintro child (rfl | rfl | rfl)
    · exact hderives
    · exact .leaf op
    · exact hderives'
  · simp [frontier, frontierAll]

/-- The tree of `n`. -/
def number : Tree := .node 2 [.leaf (0, "n")]

/-- The tree of `n^n^n`. -/
def power : Tree := .node 0 [number, .leaf (2, "^"), .node 0 [number, .leaf (2, "^"), number]]

/-- The tree of `n<n-n+n^n^n`. -/
def comparison : Tree :=
  .node 1 [number, .leaf (1, "<"),
    .node 4 [.node 3 [number, .leaf (4, "-"), number], .leaf (3, "+"), power]]

/-- The tokens of `n<n-n+n^n^n`. -/
def comparisonTokens : List Token :=
  [⟨0, "n", 0, 1⟩, ⟨1, "<", 1, 2⟩, ⟨0, "n", 2, 3⟩, ⟨4, "-", 3, 4⟩, ⟨0, "n", 4, 5⟩, ⟨3, "+", 5, 6⟩,
    ⟨0, "n", 6, 7⟩, ⟨2, "^", 7, 8⟩, ⟨0, "n", 8, 9⟩, ⟨2, "^", 9, 10⟩, ⟨0, "n", 10, 11⟩]

theorem grouped_comparison : Tree.comparison.Grouped Blueprint.arithmetic.draft.Takes := by
  obtain ⟨-, -, -, hprecs, hmembers⟩ := Blueprint.draft_arithmetic
  have hless : Blueprint.arithmetic.draft.InGroup 1 ⟨.none, 0⟩ :=
    ⟨0, by rw [hmembers]; decide, by rw [hprecs]; rfl⟩
  have hplus : Blueprint.arithmetic.draft.InGroup 3 ⟨.left, 1⟩ :=
    ⟨1, by rw [hmembers]; decide, by rw [hprecs]; rfl⟩
  have hminus : Blueprint.arithmetic.draft.InGroup 4 ⟨.left, 1⟩ :=
    ⟨1, by rw [hmembers]; decide, by rw [hprecs]; rfl⟩
  have hpower : Blueprint.arithmetic.draft.InGroup 2 ⟨.right, 2⟩ :=
    ⟨2, by rw [hmembers]; decide, by rw [hprecs]; rfl⟩
  have hnumber : Tree.number.Grouped Blueprint.arithmetic.draft.Takes := .atom _ _
  have hnone : ∀ {side : Assoc} {op : Nat}, ∀ q ∈ Tree.number.operator?,
      Blueprint.arithmetic.draft.Takes side op q := fun _ hq => nomatch hq
  refine .binary hnumber (.binary (.binary hnumber hnumber hnone hnone) (.binary hnumber
    (.binary hnumber hnumber hnone hnone) hnone ?_) ?_ ?_) hnone ?_
  · rintro q ⟨⟩
    exact ⟨_, _, hpower, hpower, by decide⟩
  · rintro q ⟨⟩
    exact ⟨_, _, hplus, hminus, by decide⟩
  · rintro q ⟨⟩
    exact ⟨_, _, hplus, hpower, by decide⟩
  · rintro q ⟨⟩
    exact ⟨_, _, hless, hplus, by decide⟩

end Tree

/-- The comparison comes last, the sum is grouped to the left and the power to the right. -/
theorem Draft.Operators.parse_grouped_arithmetic :
    Blueprint.arithmetic.draft.Operators 0 [1, 2, 3, 4] ∧ ∃ (p : Parser String) (o : Outcome String),
      Blueprint.arithmetic.build = .ok p ∧ p.Ends "n<n-n+n^n^n" o ∧
      o.result = .ok "(n<((n-n)+(n^(n^n))))" := by
  have hoperators := Blueprint.operators_arithmetic
  obtain ⟨g, t, hg, -, -, -, hparsers⟩ := hoperators.parse_grouped
  obtain ⟨p, hp, hsize, hstart, hlhs, hrhs, htokens, hvalue⟩ :=
    Blueprint.exists_build (b := Blueprint.arithmetic)
    (P := fun p => p.grammar.prods.size = 5 ∧ p.grammar.start = 0 ∧
      (∀ i < p.grammar.prods.size, p.grammar.lhs i = 0) ∧
      [0, 1, 2, 3, 4].map p.grammar.rhs = [p.grammar.binary 2, p.grammar.binary 1, [.terminal 0],
        p.grammar.binary 4, p.grammar.binary 3] ∧
      p.lexer.tokens "n<n-n+n^n^n" =
        Tree.comparisonTokens.map .ok ++ [.ok ⟨p.grammar.eof, "", 11, 11⟩] ∧
      (p.evaluate Tree.comparison).toOption = some "(n<((n-n)+(n^(n^n))))")
    (by decide +kernel)
  obtain ⟨start, values, hstart?, hbuild, -⟩ := Blueprint.build_eq_ok hp
  obtain rfl : 0 = start := by
    have hzero : Blueprint.arithmetic.start? = some 0 := by decide +kernel
    exact Option.some.inj (hzero.symm.trans hstart?)
  obtain rfl : p.grammar = g := Except.ok.inj (hbuild.symm.trans hg)
  simp only [List.map_cons, List.map_nil, List.cons.injEq, and_true] at hrhs
  obtain ⟨hrhs₀, hrhs₁, hrhs₂, hrhs₃, hrhs₄⟩ := hrhs
  have hlhs : ∀ i < 5, p.grammar.lhs i = p.grammar.start := fun i hi =>
    (hlhs i (hsize ▸ hi)).trans hstart.symm
  have hnumber : Tree.number.Parses p.grammar [(0, "n")] :=
    Tree.parses_atom (by omega) (hlhs 2 (by omega)) hrhs₂
  have hpower : Tree.power.Parses p.grammar _ :=
    hnumber.binary (hnumber.binary hnumber (by omega) (hlhs 0 (by omega)) hrhs₀) (by omega)
      (hlhs 0 (by omega)) hrhs₀
  have hparses : Tree.comparison.Parses p.grammar _ :=
    hnumber.binary ((hnumber.binary hnumber (by omega) (hlhs 3 (by omega)) hrhs₃).binary hpower
      (by omega) (hlhs 4 (by omega)) hrhs₄) (by omega) (hlhs 1 (by omega)) hrhs₁
  obtain ⟨o, ho, htree⟩ := hparsers String Blueprint.arithmetic p Blueprint.declared_arithmetic hp rfl
    "n<n-n+n^n^n"
  have hconforms := ((htree _ htokens).1 Tree.comparison hparses Tree.grouped_comparison).2
  rw [Parser.Conforms, eq_ok_of_toOption hvalue] at hconforms
  exact ⟨hoperators, p, o, hp, ho, hconforms.1⟩

end ShiftReduce
