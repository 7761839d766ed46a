import ShiftReduce.Proofs.Parser.Recovery

/-!
# Which error a handler is given

A parser keeps one error that it has recovered from, while several terminals for wrong input can stand
on its stack at once. To say which error each of them stands for, an `Account` follows a parse and notes
all errors that are recovered from, and for each entry of the stack the recovery that pushed it, if one
did. It changes nothing in the parse (`Parser.map_config_accountAfter`).

`Account.Faithful` is what the two have to do with each other: the parser keeps the latest error as
long as the terminal that was pushed for it stays on the stack, and no error after that. So a handler is
given the error of its own production if no other error was recovered from since, and otherwise it is
not called at all: the rule of the production is used, as if nothing had been wrong
(`Blueprint.Declared.handler_sees_latest`).
-/

namespace ShiftReduce

open Tables (Stacked)

/-- A parse with its history. -/
structure Account (α : Type) where
  config : Config α
  /-- The errors that have been recovered from, the first one first. -/
  errors : List ParseError
  /-- By entry of the stack: the number of the recovery that pushed it. -/
  origins : List (Option Nat)

namespace Account

variable {α : Type}

/-- Notes that a step has led to the given configuration. -/
def record (p : Parser α) (input : String) (a : Account α) (c : Config α) : Account α :=
  match p.tables.actionAt (p.top a.config.stack) a.config.token.terminal with
  | .shift _ => ⟨c, a.errors, none :: a.origins⟩
  | .reduce prod => ⟨c, a.errors, none :: a.origins.drop (p.arity prod)⟩
  | _ =>
    if a.config.shifted then
      ⟨c, a.errors ++ [p.syntaxError input (p.top a.config.stack) a.config.token],
        some a.errors.length :: a.origins.drop (a.config.stack.length + 1 - c.stack.length)⟩
    else ⟨c, a.errors, a.origins⟩

/-- The account after one more step, unless it ends the parse. -/
def next (p : Parser α) (input : String) (a : Account α) : Option (Account α) :=
  match p.step input a.config with
  | (_, .next c) => some (a.record p input c)
  | (_, .done _) => none

end Account

namespace Parser

variable {α : Type} {p : Parser α} {input : String} {a a' : Account α} {c : Config α}
  {prod terminal : Nat}

/-- The account after the given number of steps, unless the parse has ended by then. -/
def accountAfter (p : Parser α) (input : String) : Nat → Option (Account α)
  | 0 => (p.configAfter input 0).map fun c => ⟨c, [], []⟩
  | n + 1 => (accountAfter p input n).bind fun a => a.next p input

theorem config_record (a : Account α) (c : Config α) : (a.record p input c).config = c := by
  rw [Account.record]
  split
  · rfl
  · rfl
  · split
    · rfl
    · rfl

theorem map_config_next (a : Account α) : (a.next p input).map Account.config =
    match p.step input a.config with
    | (_, .next c) => some c
    | (_, .done _) => none := by
  rw [Account.next]
  cases p.step input a.config with
  | mk moves result =>
    cases result with
    | next c => exact congrArg some (config_record a c)
    | done result => rfl

/-- An account goes through the configurations that the parse goes through. -/
theorem map_config_accountAfter (p : Parser α) (input : String) (n : Nat) :
    (p.accountAfter input n).map Account.config = p.configAfter input n := by
  induction n with
  | zero =>
    rw [accountAfter, Option.map_map]
    exact Option.map_id_fun' ▸ rfl
  | succ n ih =>
    rw [accountAfter, configAfter, ← ih]
    cases p.accountAfter input n with
    | none => rfl
    | some a => exact map_config_next a

theorem reached_of_accountAfter {n : Nat} (h : p.accountAfter input n = some a) :
    p.Reached input a.config := by
  refine reached_of_configAfter (n := n) ?_
  rw [← map_config_accountAfter, h, Option.map_some]

/-- The terminal for wrong input is in a production exactly if the production uses it. -/
theorem usesError_iff (herror : p.grammar.error = some terminal) :
    p.usesError prod = true ↔ .terminal terminal ∈ p.grammar.rhs prod := by
  simp only [usesError, herror, decide_eq_true_eq]

/-- No token of the input has the terminal for wrong input. -/
theorem Reached.terminal_ne_error (hp : p.Proper) (hc : p.Reached input c)
    (herror : p.grammar.error = some terminal) {next : Nat}
    (haction : p.tables.actionAt (p.top c.stack) c.token.terminal = .shift next) :
    c.token.terminal ≠ terminal := by
  obtain ⟨tokens, forest, hsound⟩ := hc.exists_sound hp
  rw [hp.top_eq] at haction
  have hne := (hp.made.walk_of_shift hp.wellFormed hsound.stacked.walk_topState haction).2
  have hmem : .ok c.token ∈ p.lexer.tokens input := by
    rw [hsound.split]
    exact List.mem_append_right _ List.mem_cons_self
  have hcut := hp.lexer.decomposes_tokensFrom 0 input.toList
  obtain ⟨q, hq, hterminal⟩ := (hcut.terminal_of_mem hmem).resolve_left hne
  rintro rfl
  rw [← hterminal] at herror
  exact (hp.patterns q hq).2 herror

end Parser

/-! ### What the parser keeps of the history -/

namespace Account

variable {α : Type} {p : Parser α} {input : String} {a : Account α} {c : Config α}
  {forest : List Tree} {prod terminal : Nat}

/-- The stack stands for a forest, and the entries pushed by recoveries are those of the terminal for
wrong input, a later one above an earlier one. The parser keeps the latest error as long as its entry is
on the stack, and no error otherwise. -/
structure Faithful (p : Parser α) (terminal : Nat) (a : Account α) (forest : List Tree) :
    Prop where
  stacked : Stacked p.grammar (fun _ _ => True) a.config.stack forest
  marked : a.origins.map Option.isSome =
    (forest.map (Tree.root p.grammar)).map fun symbol => decide (symbol = .terminal terminal)
  ordered : a.origins.Pairwise fun upper lower => ∀ i j, upper = some i → lower = some j → j < i
  noted : ∀ i, some i ∈ a.origins → i < a.errors.length
  kept : ∀ i, some i ∈ a.origins → i + 1 = a.errors.length → a.config.recovered = a.errors[i]?
  gone : (∀ i, some i ∈ a.origins → i + 1 ≠ a.errors.length) → a.config.recovered = none

/-- Where a production with the terminal for wrong input is reduced, the last such terminal in it was
pushed by a recovery. All other recoveries whose entries are on the stack came before, and their entries
are further down. -/
theorem Faithful.exists_origin (hp : p.Proper) (h : a.Faithful p terminal forest)
    (haction : p.tables.actionAt (p.top a.config.stack) a.config.token.terminal = .reduce prod)
    {before after : List Symbol} (hrhs : p.grammar.rhs prod = before ++ .terminal terminal :: after)
    (hafter : .terminal terminal ∉ after) :
    ∃ i, a.origins[after.length]? = some (some i) ∧
      (∀ j, some j ∈ a.origins → j ≤ i) ∧
      ∀ j, some j ∈ a.origins.drop (p.grammar.rhs prod).length → j < i := by
  rw [hp.top_eq] at haction
  have hroots : forest.map (Tree.root p.grammar) = after.reverse ++ (.terminal terminal ::
      (before.reverse ++ (forest.drop (p.grammar.rhs prod).length).map (Tree.root p.grammar))) := by
    have := congrArg List.reverse (h.stacked.roots_drop hp.wellFormed hp.made haction)
    rw [roots, List.reverse_reverse] at this
    rw [this, roots, List.reverse_append, List.reverse_reverse, hrhs]
    simp
  have hmarked := h.marked
  rw [hroots, List.map_append, List.map_cons, List.map_eq_append_iff] at hmarked
  obtain ⟨upper, lower', horigins, hupper, hlower⟩ := hmarked
  obtain ⟨origin, lower, rfl, hsome, -⟩ := List.map_eq_cons_iff.1 hlower
  obtain ⟨i, rfl⟩ := Option.isSome_iff_exists.1 (hsome.trans (decide_eq_true rfl))
  -- what stands above the terminal was not pushed by a recovery
  have hnone : ∀ j, some j ∉ upper := by
    intro j hj
    have hmem : true ∈ upper.map Option.isSome := List.mem_map.2 ⟨some j, hj, rfl⟩
    rw [hupper, List.map_reverse, List.mem_reverse] at hmem
    obtain ⟨symbol, hsymbol, htrue⟩ := List.mem_map.1 hmem
    rw [of_decide_eq_true htrue] at hsymbol
    exact hafter hsymbol
  have hlength : upper.length = after.length := by
    have := congrArg List.length hupper
    rwa [List.length_map, List.length_map, List.length_reverse] at this
  have hbelow : ∀ j, some j ∈ lower → j < i := by
    have hordered := h.ordered
    rw [horigins] at hordered
    intro j hj
    exact (List.pairwise_cons.1 (List.pairwise_append.1 hordered).2.1).1 _ hj i j rfl rfl
  refine ⟨i, ?_, ?_, ?_⟩
  · rw [horigins, ← hlength, List.getElem?_append_right le_rfl, Nat.sub_self, List.getElem?_cons_zero]
  · intro j hj
    rw [horigins, List.mem_append, List.mem_cons] at hj
    rcases hj with hj | hj | hj
    · exact absurd hj (hnone j)
    · exact (Option.some.inj hj).le
    · exact (hbelow j hj).le
  · intro j hj
    refine hbelow j ?_
    have hrhs_length : (p.grammar.rhs prod).length = upper.length + (before.length + 1) := by
      rw [hrhs, List.length_append, List.length_cons, hlength]
      omega
    rw [horigins, hrhs_length, List.drop_length_add_append, List.drop_succ_cons] at hj
    exact List.mem_of_mem_drop hj

/-- A production without the terminal for wrong input takes nothing off the stack that a recovery
pushed. -/
theorem Faithful.mem_drop_iff (hp : p.Proper) (h : a.Faithful p terminal forest)
    (haction : p.tables.actionAt (p.top a.config.stack) a.config.token.terminal = .reduce prod)
    (hrhs : .terminal terminal ∉ p.grammar.rhs prod) (i : Nat) :
    some i ∈ a.origins.drop (p.grammar.rhs prod).length ↔ some i ∈ a.origins := by
  refine ⟨List.mem_of_mem_drop, fun hi => ?_⟩
  rw [hp.top_eq] at haction
  obtain ⟨-, hroots⟩ := h.stacked.roots_of_reduce hp.wellFormed hp.made haction
  rw [← List.take_append_drop (p.grammar.rhs prod).length a.origins, List.mem_append] at hi
  refine hi.resolve_left fun htake => hrhs ?_
  have hmem : true ∈ (a.origins.take (p.grammar.rhs prod).length).map Option.isSome :=
    List.mem_map.2 ⟨some i, htake, rfl⟩
  rw [List.map_take, h.marked, ← List.map_take, ← List.map_take] at hmem
  obtain ⟨symbol, hsymbol, htrue⟩ := List.mem_map.1 hmem
  rw [of_decide_eq_true htrue, ← List.mem_reverse, ← List.map_reverse, hroots] at hsymbol
  exact hsymbol

/-! ### Steps -/

theorem faithful_start (c : Config α) (hstack : c.stack = []) (hrecovered : c.recovered = none) :
    Faithful p terminal ⟨c, [], []⟩ [] where
  stacked := by
    rw [hstack]
    exact .nil
  marked := rfl
  ordered := .nil
  noted i hi := absurd hi List.not_mem_nil
  kept i hi := absurd hi List.not_mem_nil
  gone _ := hrecovered

theorem Faithful.shift (hp : p.Proper) (h : a.Faithful p terminal forest) {next : Nat}
    (haction : p.tables.actionAt (p.top a.config.stack) a.config.token.terminal = .shift next)
    (hne : a.config.token.terminal ≠ terminal) (hshift : p.shift input a.config next = .next c) :
    Faithful p terminal ⟨c, a.errors, none :: a.origins⟩ (.leaf a.config.token.word :: forest) := by
  rw [hp.top_eq] at haction
  obtain ⟨value, token, ahead, -, -, rfl⟩ := Parser.shift_eq_next hshift
  have hmem : ∀ i, some i ∈ none :: a.origins ↔ some i ∈ a.origins := by simp
  refine { stacked := ?_, marked := ?_, ordered := ?_, noted := ?_, kept := ?_, gone := ?_ }
  · exact h.stacked.shift hp.wellFormed hp.made haction trivial
  · rw [List.map_cons, h.marked, List.map_cons, List.map_cons]
    congr 1
    exact (decide_eq_false fun heq => hne (Symbol.terminal.inj heq)).symm
  · exact List.pairwise_cons.2 ⟨fun _ _ i j hi => absurd hi (by simp), h.ordered⟩
  · exact fun i hi => h.noted i ((hmem i).1 hi)
  · exact fun i hi => h.kept i ((hmem i).1 hi)
  · exact fun hlatest => h.gone fun i hi => hlatest i ((hmem i).2 hi)

theorem exists_last_of_mem {symbol : Symbol} {symbols : List Symbol} (h : symbol ∈ symbols) :
    ∃ before after, symbols = before ++ symbol :: after ∧ symbol ∉ after := by
  obtain ⟨xs, ys, hsplit, hnot⟩ := List.eq_append_cons_of_mem (List.mem_reverse.2 h)
  refine ⟨ys.reverse, xs.reverse, ?_, fun hmem => hnot (List.mem_reverse.1 hmem)⟩
  rw [← List.reverse_reverse symbols, hsplit]
  simp

theorem Faithful.reduce (hp : p.Proper) (h : a.Faithful p terminal forest)
    (herror : p.grammar.error = some terminal)
    (haction : p.tables.actionAt (p.top a.config.stack) a.config.token.terminal = .reduce prod)
    (hreduce : p.reduce input a.config prod = .next c) :
    Faithful p terminal ⟨c, a.errors, none :: a.origins.drop (p.arity prod)⟩
      (.node prod (forest.take (p.grammar.rhs prod).length).reverse ::
        forest.drop (p.grammar.rhs prod).length) := by
  obtain ⟨v, next, -, hgoto, rfl⟩ := Parser.reduce_eq_next hreduce
  have htop := haction
  rw [hp.top_eq] at htop
  obtain ⟨hprod, -⟩ := h.stacked.roots_of_reduce hp.wellFormed hp.made htop
  simp only [hp.arity_eq hprod, hp.target_eq hprod, hp.top_eq] at hgoto ⊢
  have hmem : ∀ i, some i ∈ none :: a.origins.drop (p.grammar.rhs prod).length ↔
      some i ∈ a.origins.drop (p.grammar.rhs prod).length := by simp
  refine { stacked := ?_, marked := ?_, ordered := ?_, noted := ?_, kept := ?_, gone := ?_ }
  · exact h.stacked.reduce hp.wellFormed hp.made htop hgoto trivial
  · rw [List.map_cons, List.map_drop, h.marked, List.map_cons, List.map_cons, List.map_drop,
      List.map_drop]
    rfl
  · exact List.pairwise_cons.2 ⟨fun _ _ i j hi => absurd hi (by simp),
      h.ordered.sublist (List.drop_sublist _ _)⟩
  · exact fun i hi => h.noted i (List.mem_of_mem_drop ((hmem i).1 hi))
  · intro i hi (hlatest : i + 1 = a.errors.length)
    rw [hmem] at hi
    by_cases huses : p.usesError prod = true
    · -- the terminal of this production was pushed later than all that is left
      obtain ⟨before, after, hrhs, hafter⟩ := exists_last_of_mem ((Parser.usesError_iff herror).1 huses)
      obtain ⟨i', hi', -, hbelow⟩ := h.exists_origin hp haction hrhs hafter
      have hlt := hbelow i hi
      have hnoted := h.noted i' (List.mem_of_getElem? hi')
      omega
    · rw [if_neg huses]
      exact h.kept i (List.mem_of_mem_drop hi) hlatest
  · intro hlatest
    by_cases huses : p.usesError prod = true
    · rw [if_pos huses]
    · rw [if_neg huses]
      refine h.gone fun i hi => hlatest i ((hmem i).2 ?_)
      exact (h.mem_drop_iff hp haction (fun hmem => huses ((Parser.usesError_iff herror).2 hmem)) i).2 hi

theorem Faithful.recover (hp : p.Proper) (h : a.Faithful p terminal forest)
    (herror : p.grammar.error = some terminal) {e : ParseError} {moves : List Move}
    (hrecover : p.recover input a.config e = (moves, .next c)) :
    ∃ forest', Faithful p terminal ⟨c, a.errors ++ [e],
      some a.errors.length :: a.origins.drop (a.config.stack.length + 1 - c.stack.length)⟩
        forest' := by
  obtain ⟨terminal', stack, state, next, value, moves', token, ahead, herror', hpoint, -, -, -, rfl⟩ :=
    Parser.recover_eq_next hrecover
  obtain rfl : terminal = terminal' := Option.some.inj (herror.symm.trans herror')
  obtain ⟨hsuffix, rfl, hnext, -⟩ := Parser.longest_of_recoveryPoint hpoint
  rw [hp.top_eq] at hnext
  have hstack := List.suffix_iff_eq_drop.1 hsuffix
  have hlength : a.config.stack.length + 1 - ((next, value) :: stack).length =
      a.config.stack.length - stack.length := by
    rw [List.length_cons]
    omega
  simp only [hlength]
  generalize a.config.stack.length - stack.length = n at hstack
  subst hstack
  refine ⟨.leaf (terminal, a.config.token.text) :: forest.drop n, ?_⟩
  refine { stacked := ?_, marked := ?_, ordered := ?_, noted := ?_, kept := ?_, gone := ?_ }
  · exact (h.stacked.drop n).shift hp.wellFormed hp.made hnext trivial
  · rw [List.map_cons, List.map_drop, h.marked, List.map_cons, List.map_cons, List.map_drop,
      List.map_drop]
    congr 1
    exact (decide_eq_true rfl).symm
  · refine List.pairwise_cons.2 ⟨?_, h.ordered.sublist (List.drop_sublist _ _)⟩
    rintro lower hlower i j ⟨⟩ rfl
    exact h.noted j (List.mem_of_mem_drop hlower)
  · intro i hi
    rw [List.length_append, List.length_singleton]
    rcases List.mem_cons.1 hi with hi | hi
    · rw [Option.some.inj hi]
      exact Nat.lt_succ_self _
    · exact Nat.lt_succ_of_lt (h.noted i (List.mem_of_mem_drop hi))
  · intro i hi hlatest
    rw [List.length_append, List.length_singleton] at hlatest
    obtain rfl := Nat.succ.inj hlatest
    rw [List.getElem?_concat_length]
  · intro hlatest
    refine absurd ?_ (hlatest a.errors.length List.mem_cons_self)
    rw [List.length_append, List.length_singleton]

/-- Every step keeps the account faithful. -/
theorem Faithful.next (hp : p.Proper) (h : a.Faithful p terminal forest)
    (herror : p.grammar.error = some terminal) (hc : p.Reached input a.config) {a' : Account α}
    (hnext : a.next p input = some a') : ∃ forest', a'.Faithful p terminal forest' := by
  rw [Account.next] at hnext
  split at hnext
  · next moves c hstep =>
    obtain rfl := Option.some.inj hnext
    rcases Parser.step_cases hstep with ⟨next, haction, -, hshift⟩ | ⟨prod, haction, -, hreduce⟩ |
      ⟨haction, hstumble⟩
    · rw [record, haction]
      exact ⟨_, h.shift hp haction (hc.terminal_ne_error hp herror haction) hshift⟩
    · rw [record, haction]
      exact ⟨_, h.reduce hp herror haction hreduce⟩
    · rw [record, haction]
      rcases Parser.stumble_eq_next hstumble with ⟨hshifted, hrecover⟩ |
        ⟨token, ahead, hshifted, -, -, -, rfl⟩
      · simp only [hshifted, if_true]
        exact h.recover hp herror hrecover
      · simp only [hshifted, Bool.false_eq_true, if_false]
        exact ⟨forest, h.stacked, h.marked, h.ordered, h.noted, h.kept, h.gone⟩
  · exact absurd hnext (by simp)

end Account

namespace Parser

variable {α : Type} {p : Parser α} {input : String} {a : Account α} {c : Config α}
  {prod terminal : Nat}

/-- An account is faithful throughout the parse. -/
theorem Proper.faithful_accountAfter (hp : p.Proper) (herror : p.grammar.error = some terminal)
    {n : Nat} (h : p.accountAfter input n = some a) :
    ∃ forest, a.Faithful p terminal forest := by
  induction n generalizing a with
  | zero =>
    obtain ⟨c, hc, rfl⟩ := Option.map_eq_some_iff.1 h
    rw [configAfter] at hc
    split at hc
    · obtain rfl := Option.some.inj hc
      exact ⟨[], Account.faithful_start _ rfl rfl⟩
    · exact absurd hc (by simp)
  | succ n ih =>
    obtain ⟨a', ha', hnext⟩ := Option.bind_eq_some_iff.1 h
    obtain ⟨forest, hforest⟩ := ih ha'
    exact hforest.next hp herror (reached_of_accountAfter ha') hnext

/-! ### Reductions -/

/-- The values that a production takes off the stack, in the order of its symbols. -/
def operands (p : Parser α) (c : Config α) (prod : Nat) : List α :=
  ((c.stack.take (p.arity prod)).map Prod.snd).reverse

/-- The step reduces the production, with the given value for it, and no error is kept. -/
def ReducesTo (p : Parser α) (input : String) (c : Config α) (prod : Nat) (v : α) : Prop :=
  ∃ next, p.tables.gotoAt (p.top (c.stack.drop (p.arity prod))) (p.target prod) = some next ∧
    p.step input c = ([.reduce (p.top (c.stack.drop (p.arity prod))) prod],
      .next ⟨(next, v) :: c.stack.drop (p.arity prod), c.token, c.ahead, none, c.shifted⟩)

/-- The step ends the parse because the rule of the production refuses its values. -/
def Refuses (p : Parser α) (input : String) (c : Config α) (prod : Nat) (message : String) : Prop :=
  p.step input c = ([.reduce (p.top (c.stack.drop (p.arity prod))) prod],
    .done (.error (.refused message (p.grammar.prodText prod) ⟨c.token.start, c.token.stop⟩
      (Text.Location.ofOffset input c.token.start))))

theorem step_of_reduce
    (haction : p.tables.actionAt (p.top c.stack) c.token.terminal = .reduce prod) :
    p.step input c = ([.reduce (p.top (c.stack.drop (p.arity prod))) prod],
      p.reduce input c prod) := by
  rw [step, haction]

/-- The value that is made of the operands decides what a reduction does. -/
theorem Reached.reducesTo (hp : p.Proper) (hc : p.Reached input c) (huses : p.usesError prod = true)
    (haction : p.tables.actionAt (p.top c.stack) c.token.terminal = .reduce prod) {v : α}
    (hv : p.reduceValue input prod c.recovered c.token (p.operands c prod) = .ok v) :
    p.ReducesTo input c prod v := by
  obtain ⟨-, -, -, -, next, hnext, -⟩ := (hc.safe hp).reduce prod haction
  rw [operands] at hv
  refine ⟨next, hnext, ?_⟩
  rw [step_of_reduce haction]
  simp only [reduce, huses, if_true, hv, hnext]

theorem refuses_of_reduceValue (huses : p.usesError prod = true)
    (haction : p.tables.actionAt (p.top c.stack) c.token.terminal = .reduce prod) {e : ParseError}
    (hv : p.reduceValue input prod c.recovered c.token (p.operands c prod) = .error e) :
    p.step input c = ([.reduce (p.top (c.stack.drop (p.arity prod))) prod], .done (.error e)) := by
  rw [operands] at hv
  rw [step_of_reduce haction]
  simp only [reduce, huses, if_true, hv]

end Parser

/-- Where a production with the terminal for wrong input is reduced, the last such terminal in it was
pushed by some recovery. The handler of the production is called, with the error of this recovery, if
no other error was recovered from since. Otherwise the rule is used. -/
theorem Blueprint.Declared.handler_sees_latest {α : Type} {b : Blueprint α} (hb : b.Declared)
    {p : Parser α} (hp : b.build = .ok p) {input : String} {n : Nat} {a : Account α}
    (ha : p.accountAfter input n = some a) {terminal prod : Nat}
    (herror : p.grammar.error = some terminal)
    (haction : p.tables.actionAt (p.top a.config.stack) a.config.token.terminal = .reduce prod)
    {before after : List Symbol} (hrhs : p.grammar.rhs prod = before ++ .terminal terminal :: after)
    (hafter : .terminal terminal ∉ after) :
    ∃ i e r, a.origins[after.length]? = some (some i) ∧ a.errors[i]? = some e ∧
      p.rules[prod]? = some r ∧
      ∀ handler, r.onError = some handler →
        (i + 1 = a.errors.length →
          p.ReducesTo input a.config prod (handler e (p.operands a.config prod))) ∧
        (i + 1 ≠ a.errors.length →
          (∀ v, r.rule.run (p.operands a.config prod) = .ok v →
            p.ReducesTo input a.config prod v) ∧
          ∀ message, r.rule.run (p.operands a.config prod) = .error message →
            p.Refuses input a.config prod message) := by
  have hproper := hb.proper hp
  have hreached := Parser.reached_of_accountAfter ha
  obtain ⟨forest, hfaithful⟩ := hproper.faithful_accountAfter herror ha
  obtain ⟨i, hi, hall, -⟩ := hfaithful.exists_origin hproper haction hrhs hafter
  have hmem := List.mem_of_getElem? hi
  obtain ⟨-, -, -, ⟨r, hr, -⟩, -⟩ := (hreached.safe hproper).reduce prod haction
  have huses : p.usesError prod = true := by
    rw [Parser.usesError_iff herror, hrhs]
    exact List.mem_append_right _ List.mem_cons_self
  refine ⟨i, _, r, hi, List.getElem?_eq_getElem (hfaithful.noted i hmem), hr, ?_⟩
  intro handler hhandler
  constructor
  · intro hlatest
    have hkept := hfaithful.kept i hmem hlatest
    rw [List.getElem?_eq_getElem (hfaithful.noted i hmem)] at hkept
    refine hreached.reducesTo hproper huses haction ?_
    simp only [Parser.reduceValue, hr, hkept, hhandler]
  · intro hlater
    -- the latest error was handed over before, with its terminal
    have hgone : a.config.recovered = none := by
      refine hfaithful.gone fun j hj hlatest => ?_
      have hle := hall j hj
      have hlt := hfaithful.noted i hmem
      omega
    constructor
    · intro v hv
      refine hreached.reducesTo hproper huses haction ?_
      simp only [Parser.reduceValue, hr, hgone, hv, Except.mapError]
    · intro message hmessage
      refine Parser.refuses_of_reduceValue huses haction ?_
      simp only [Parser.reduceValue, hr, hgone, hmessage, Except.mapError]

/-! ### An error within an error -/

/-- Declarations for a parser of `S = error ; T ;` and `T = error ! | x`, whose rules and handlers tell
which of them was called. -/
def Blueprint.nested : Blueprint String :=
  let b : Blueprint String := .empty
  let b := b.errorToken.1
  let b := (b.terminal "q" id).1
  let b := b.setLiteralValue id
  let b := (b.nonterminal "S").1
  let b := (b.nonterminal "T").1
  let b := (b.production 0 [.terminal (.declared 0), .terminal (.literal ";"), .nonterminal 1,
    .terminal (.literal ";")]).1
  let b := b.setRule 0 (.apply fun _ => .ok "rule of S")
  let b := b.setOnError 0 fun _ _ => "handler of S"
  let b := (b.production 1 [.terminal (.declared 0), .terminal (.literal "!")]).1
  let b := b.setRule 1 (.apply fun _ => .ok "rule of T")
  let b := b.setOnError 1 fun _ _ => "handler of T"
  (b.production 1 [.terminal (.literal "x")]).1

theorem Blueprint.declared_nested : Blueprint.nested.Declared := by
  refine .production (.setOnError (.setRule (.production (.setOnError (.setRule (.production
    (.nonterminal (.nonterminal ?_ _) _) _ _) _ _) _ _) _ _) _ _) _ _) _ _
  exact .setLiteralValue (.terminal (.errorToken .empty) _ _) _

/-- The handler of `T` is given the second of two errors, which is its own. -/
theorem Blueprint.Declared.handler_sees_latest_nested : ∃ p a e handler,
    Blueprint.nested.build = .ok p ∧ p.accountAfter "q;q!;" 4 = some a ∧ a.errors.length = 2 ∧
    a.errors[1]? = some e ∧ p.rules[1]?.bind ProdRule.onError = some handler ∧
    p.ReducesTo "q;q!;" a.config 1 (handler e (p.operands a.config 1)) := by
  obtain ⟨p, hp, herror, hrhs, hhandler, hafter⟩ := Blueprint.exists_build (b := Blueprint.nested)
    (P := fun p => p.grammar.error = some 0 ∧
      p.grammar.rhs 1 = [] ++ .terminal 0 :: [.terminal 3] ∧
      (p.rules[1]?.bind ProdRule.onError).isSome ∧ (p.accountAfter "q;q!;" 4).map (fun a =>
        (p.tables.actionAt (p.top a.config.stack) a.config.token.terminal, a.origins,
          a.errors.length)) = some (.reduce 1, [none, some 1, none, some 0], 2))
    (by decide +kernel)
  obtain ⟨handler, hhandler⟩ := Option.isSome_iff_exists.1 hhandler
  obtain ⟨a, ha, heq⟩ := Option.map_eq_some_iff.1 hafter
  simp only [Prod.mk.injEq] at heq
  obtain ⟨haction, horigins, hlength⟩ := heq
  obtain ⟨i, e, r, hi, he, hr, hcall⟩ := Blueprint.declared_nested.handler_sees_latest hp ha herror
    haction hrhs (by decide)
  obtain rfl : 1 = i := by simpa [horigins] using hi
  rw [hr] at hhandler
  refine ⟨p, a, e, handler, hp, ha, hlength, he, ?_, (hcall handler hhandler).1 hlength.symm⟩
  rw [hr]
  exact hhandler

/-- The handler of `S` is not called although a recovery has pushed the one terminal for wrong input in
its production: another error was recovered from in between. -/
theorem Parser.unheard_nested : ∃ b : Blueprint String, b.Declared ∧ ∃ p a r handler e,
    b.build = .ok p ∧ p.accountAfter "q;q!;" 6 = some a ∧ p.grammar.error = some 0 ∧
    p.tables.actionAt (p.top a.config.stack) a.config.token.terminal = .reduce 0 ∧
    p.grammar.rhs 0 = [.terminal 0, .terminal 2, .nonterminal 1, .terminal 2] ∧
    p.rules[0]? = some r ∧ r.onError = some handler ∧
    a.origins[3]? = some (some 0) ∧ a.errors[0]? = some e ∧
    ¬ p.ReducesTo "q;q!;" a.config 0 (handler e (p.operands a.config 0)) := by
  refine ⟨Blueprint.nested, Blueprint.declared_nested, ?_⟩
  obtain ⟨p, hp, herror, hrhs, hafter⟩ := Blueprint.exists_build (b := Blueprint.nested)
    (P := fun p => p.grammar.error = some 0 ∧
      p.grammar.rhs 0 = [.terminal 0, .terminal 2, .nonterminal 1, .terminal 2] ∧
      ((p.accountAfter "q;q!;" 6).bind fun a => a.errors[0]?.bind fun e => p.rules[0]?.bind fun r =>
        r.onError.map fun handler =>
          (p.tables.actionAt (p.top a.config.stack) a.config.token.terminal, a.origins[3]?,
            handler e (p.operands a.config 0), match p.step "q;q!;" a.config with
              | (_, .next c) => c.stack.map Prod.snd
              | (_, .done _) => [])) =
        some (.reduce 0, some (some 0), "handler of S", ["rule of S"]))
    (by decide +kernel)
  obtain ⟨a, ha, hafter⟩ := Option.bind_eq_some_iff.1 hafter
  obtain ⟨e, he, hafter⟩ := Option.bind_eq_some_iff.1 hafter
  obtain ⟨r, hr, hafter⟩ := Option.bind_eq_some_iff.1 hafter
  obtain ⟨handler, hhandler, heq⟩ := Option.map_eq_some_iff.1 hafter
  simp only [Prod.mk.injEq] at heq
  obtain ⟨haction, horigin, hcall, hvalue⟩ := heq
  refine ⟨p, a, r, handler, e, hp, ha, herror, haction, hrhs, hr, hhandler, horigin, he, ?_⟩
  rintro ⟨next, -, hstep⟩
  rw [hstep, hcall] at hvalue
  exact absurd (List.cons.inj hvalue).1 (show "handler of S" ≠ "rule of S" by decide)

end ShiftReduce
