import ShiftReduce.Proofs.Parser.Reading

/-!
# The two ways to run a lexer

The automaton of a lexer is run on sets of states, or made deterministic ahead of time and kept in a
table. Both accept what the patterns say, so they find the same longest matches and cut every text in
the same way (`Lexer.Realizes.scan_eq`). A parser asks its lexer only for what stands next in the
input. Another lexer with the same answers therefore makes no difference to any of its steps
(`Parser.parseWithin_withLexer`).

`runtimes_agree` puts this together: the choice of the runtime decides neither whether a lexer or a
parser can be built nor what it returns.
-/

namespace ShiftReduce

/-- Two computations fail with the same error, or both succeed with related results. -/
def Alike {ε β : Type} (R : β → β → Prop) : Except ε β → Except ε β → Prop
  | .error e, .error e' => e = e'
  | .ok x, .ok y => R x y
  | _, _ => False

theorem Alike.imp {ε β : Type} {R S : β → β → Prop} {x y : Except ε β} (h : Alike R x y)
    (hRS : ∀ u v, R u v → S u v) : Alike S x y := by
  cases x with
  | error e =>
    cases y with
    | error e' => exact h
    | ok v => exact h
  | ok u =>
    cases y with
    | error e => exact h
    | ok v => exact hRS u v h

namespace Lexer

variable {lx lx' : Lexer} {ps : List Pattern} {eof : Nat}

/-- The longest match is determined by the patterns. -/
theorem Realizes.longest_eq (h : lx.Realizes ps eof) (h' : lx'.Realizes ps eof) (cs : List Char) :
    lx.longest cs = lx'.longest cs := by
  cases hfound : lx.longest cs with
  | none => exact (h'.longest_eq_none_iff.2 (h.longest_eq_none_iff.1 hfound)).symm
  | some found => exact (h'.longest_eq_some_iff.2 (h.longest_eq_some_iff.1 hfound)).symm

/-- What stands next is determined by the patterns. -/
theorem Realizes.scan_eq (h : lx.Realizes ps eof) (h' : lx'.Realizes ps eof) (pos : Nat)
    (cs : List Char) : lx'.scan pos cs = lx.scan pos cs := by
  fun_induction scan lx pos cs with
  | case1 pos => rw [scan]
  | case2 pos c rest found hfound stop hskip ih =>
    rw [h.longest_eq h'] at hfound
    rw [h.mem_skip_iff, ← h'.mem_skip_iff] at hskip
    rw [scan, ← ih]
    split
    · next found' hfound' =>
      obtain rfl := Option.some.inj (hfound.symm.trans hfound')
      exact if_pos hskip
    · next hnone => exact absurd (hfound.symm.trans hnone) (by simp)
  | case3 pos c rest found hfound stop hskip =>
    rw [h.longest_eq h'] at hfound
    rw [h.mem_skip_iff, ← h'.mem_skip_iff] at hskip
    rw [scan]
    split
    · next found' hfound' =>
      obtain rfl := Option.some.inj (hfound.symm.trans hfound')
      exact if_neg hskip
    · next hnone => exact absurd (hfound.symm.trans hnone) (by simp)
  | case4 pos c rest hnone stop =>
    rw [h.longest_eq h'] at hnone
    rw [scan]
    split
    · next found' hfound' => exact absurd (hnone.symm.trans hfound') (by simp)
    · rfl

/-- The tokens are determined by the patterns. -/
theorem Realizes.tokens_eq (h : lx.Realizes ps eof) (h' : lx'.Realizes ps eof) (input : String) :
    lx.tokens input = lx'.tokens input :=
  h.tokensFrom_of_decomposes (h'.decomposes_tokensFrom 0 input.toList)

/-- A lexer is run in the way that was asked for. -/
theorem runtime_of_build {runtime : Runtime} (h : build ps eof runtime = .ok lx) :
    lx.runtime = runtime := by
  rw [build, construct] at h
  split at h
  · exact absurd h (by simp [Except.map])
  · cases runtime with
    | nfa =>
      obtain rfl := Except.ok.inj h
      rfl
    | tabular =>
      obtain rfl := Except.ok.inj h
      rfl

/-- The runtime does not decide whether a lexer can be built. -/
theorem build_alike (ps : List Pattern) (eof : Nat) (runtime runtime' : Runtime) :
    Alike (fun lx lx' => lx.runtime = runtime ∧ lx'.runtime = runtime' ∧
      lx.Realizes ps eof ∧ lx'.Realizes ps eof) (build ps eof runtime) (build ps eof runtime') := by
  cases hps : refusal ps with
  | some e =>
    have hbuild : ∀ runtime, build ps eof runtime = .error e := by
      intro runtime
      rw [build, construct, hps]
      rfl
    rw [hbuild runtime, hbuild runtime']
    exact rfl
  | none =>
    obtain ⟨lx, hlx, hreal⟩ := exists_build hps eof runtime
    obtain ⟨lx', hlx', hreal'⟩ := exists_build hps eof runtime'
    rw [hlx, hlx']
    exact ⟨runtime_of_build hlx, runtime_of_build hlx', hreal, hreal'⟩

end Lexer

namespace Parser

variable {α : Type} {p : Parser α} {lx : Lexer} {input : String}

/-- The parser with another lexer. -/
def withLexer (p : Parser α) (lx : Lexer) : Parser α := { p with lexer := lx }

/-- The other lexer gives the same answers. -/
structure SameAnswers (p : Parser α) (lx : Lexer) : Prop where
  scan : ∀ pos cs, lx.scan pos cs = p.lexer.scan pos cs
  eof : lx.eof = p.lexer.eof

theorem SameAnswers.endToken (h : p.SameAnswers lx) (pos : Nat) :
    lx.endToken pos = p.lexer.endToken pos := by
  rw [Lexer.endToken, Lexer.endToken, h.eof]

theorem SameAnswers.nextToken (h : p.SameAnswers lx) (c : Cursor) :
    (p.withLexer lx).nextToken input c = p.nextToken input c := by
  simp only [Parser.nextToken, withLexer, h.scan, h.endToken]

theorem SameAnswers.discard (h : p.SameAnswers lx) (state : Nat) (e : ParseError) (token : Token)
    (ahead : Cursor) :
    (p.withLexer lx).discard input state e token ahead = p.discard input state e token ahead := by
  fun_induction Parser.discard p input state e token ahead with
  | case1 token ahead haction => rw [Parser.discard, if_pos (by exact haction)]
  | case2 token ahead haction heof =>
    rw [Parser.discard, if_neg (by exact haction), if_pos (by exact heof)]
  | case3 token ahead haction heof next after hscan moves result hrest ih =>
    rw [← h.scan] at hscan
    rw [Parser.discard, if_neg (by exact haction), if_neg (by exact heof)]
    split
    · next next' after' hscan' =>
      obtain ⟨rfl, rfl⟩ := Scan.token.inj (hscan.symm.trans hscan')
      rw [ih, hrest]
    · next hscan' => exact absurd (hscan.symm.trans hscan') (by simp)
    · next hscan' => exact absurd (hscan.symm.trans hscan') (by simp)
  | case4 token ahead haction heof le after hscan =>
    rw [← h.scan] at hscan
    rw [Parser.discard, if_neg (by exact haction), if_neg (by exact heof)]
    split
    · next hscan' => exact absurd (hscan.symm.trans hscan') (by simp)
    · next le' after' hscan' =>
      obtain ⟨rfl, rfl⟩ := Scan.stray.inj (hscan.symm.trans hscan')
      rfl
    · next hscan' => exact absurd (hscan.symm.trans hscan') (by simp)
  | case5 token ahead haction heof pos hscan =>
    rw [← h.scan] at hscan
    rw [Parser.discard, if_neg (by exact haction), if_neg (by exact heof)]
    split
    · next hscan' => exact absurd (hscan.symm.trans hscan') (by simp)
    · next hscan' => exact absurd (hscan.symm.trans hscan') (by simp)
    · next pos' hscan' =>
      obtain rfl := Scan.ending.inj (hscan.symm.trans hscan')
      simp only [withLexer, h.eof, h.endToken]

theorem recoveryPoint_withLexer (p : Parser α) (lx : Lexer) (terminal : Nat)
    (stack : List (Nat × α)) :
    (p.withLexer lx).recoveryPoint terminal stack = p.recoveryPoint terminal stack := by
  induction stack with
  | nil => rfl
  | cons entry stack ih =>
    rw [recoveryPoint, recoveryPoint, ih]
    rfl

theorem SameAnswers.step (h : p.SameAnswers lx) (c : Config α) :
    (p.withLexer lx).step input c = p.step input c := by
  have hshift : ∀ next, (p.withLexer lx).shift input c next = p.shift input c next := by
    intro next
    simp only [Parser.shift, h.nextToken]
    rfl
  have hrecover : ∀ e, (p.withLexer lx).recover input c e = p.recover input c e := by
    intro e
    simp only [Parser.recover, recoveryPoint_withLexer, h.discard]
    rfl
  have hstumble : (p.withLexer lx).stumble input c = p.stumble input c := by
    simp only [Parser.stumble, hrecover, h.nextToken]
    rfl
  simp only [Parser.step, hshift, hstumble]
  rfl

theorem SameAnswers.run (h : p.SameAnswers lx) (fuel : Nat) (c : Config α) :
    (p.withLexer lx).run input fuel c = p.run input fuel c := by
  induction fuel generalizing c with
  | zero => rfl
  | succ fuel ih =>
    rw [Parser.run, Parser.run, h.step]
    simp only [ih]

/-- A lexer with the same answers makes no difference to a parse. -/
theorem SameAnswers.parseWithin (h : p.SameAnswers lx) (fuel : Nat) (input : String) :
    (p.withLexer lx).parseWithin fuel input = p.parseWithin fuel input := by
  simp only [Parser.parseWithin, h.nextToken, h.run]

end Parser

namespace Blueprint

variable {α : Type}

/-- Two parsers that differ in the runtimes of their lexers only, and give the same results. -/
structure Twins (runtime runtime' : Runtime) (p p' : Parser α) : Prop where
  runtime_left : p.lexer.runtime = runtime
  runtime_right : p'.lexer.runtime = runtime'
  eq_withLexer : p' = p.withLexer p'.lexer
  parseWithin : ∀ fuel input, p.parseWithin fuel input = p'.parseWithin fuel input

/-- The lexer is the only part of a parser that the runtime has to do with. -/
theorem assemble_alike (b : Blueprint α) (g : Grammar) (values : Array (Option (String → α)))
    (runtime runtime' : Runtime) :
    Alike (Twins runtime runtime') ((b.setRuntime runtime).assemble g values).value
      ((b.setRuntime runtime').assemble g values).value := by
  have hlexer := Lexer.build_alike g.patterns g.eof runtime runtime'
  rw [Lexer.build, Lexer.build] at hlexer
  rw [assemble, assemble]
  simp only [setRuntime]
  cases hlx : Lexer.construct g.patterns g.eof runtime with
  | error e =>
    cases hlx' : Lexer.construct g.patterns g.eof runtime' with
    | error e' =>
      rw [hlx, hlx'] at hlexer
      exact congrArg ConstructionError.lexer hlexer
    | ok lx' =>
      rw [hlx, hlx'] at hlexer
      exact absurd hlexer (by simp [Except.map, Alike])
  | ok lx =>
    cases hlx' : Lexer.construct g.patterns g.eof runtime' with
    | error e' =>
      rw [hlx, hlx'] at hlexer
      exact absurd hlexer (by simp [Except.map, Alike])
    | ok lx' =>
      rw [hlx, hlx'] at hlexer
      obtain ⟨hruntime, hruntime', hreal, hreal'⟩ := hlexer
      cases ht : (Tables.construct g).value with
      | error conflict => exact rfl
      | ok t =>
        let p : Parser α := ⟨g, lx.value, t, values, b.rules⟩
        have hsame : p.SameAnswers lx'.value :=
          { scan := hreal.scan_eq hreal', eof := hreal'.eof.trans hreal.eof.symm }
        exact
          { runtime_left := hruntime, runtime_right := hruntime', eq_withLexer := rfl,
            parseWithin := fun fuel input => (hsame.parseWithin fuel input).symm }

theorem build_alike (b : Blueprint α) (runtime runtime' : Runtime) :
    Alike (Twins runtime runtime') (b.setRuntime runtime).build (b.setRuntime runtime').build := by
  have hcomplete : ∀ g, Alike (Twins runtime runtime') ((b.setRuntime runtime).complete g).value
      ((b.setRuntime runtime').complete g).value := by
    intro g
    rw [complete, complete]
    simp only [setRuntime]
    cases firstRuleFault g b.rules with
    | some e => exact rfl
    | none =>
      cases fillValues g b.literalValue (usedTerminals g) b.values with
      | error e => exact rfl
      | ok values => exact b.assemble_alike g values runtime runtime'
  have hstart : ∀ runtime, (b.setRuntime runtime).start? = b.start? := fun _ => rfl
  rw [build, build, construct, construct, hstart, hstart]
  simp only [setRuntime]
  cases b.fault with
  | some fault => exact rfl
  | none =>
    cases b.start? with
    | none => exact rfl
    | some start =>
      cases hg : (b.draft.construct start).value with
      | error e =>
        simp only [hg]
        exact rfl
      | ok g =>
        simp only [hg]
        exact hcomplete g

end Blueprint

/-- The choice of the runtime does not matter. From any patterns a lexer is built with the table if
and only if it is built with the nondeterministic automaton, with the same error otherwise, and both
give the same tokens and lexical errors for every input. Of any declarations, likewise, two parsers
are made that differ in their lexers only, or none for the same reason, and they give the same
result for every input. -/
theorem runtimes_agree :
    (∀ (ps : List Pattern) (eof : Nat),
      Alike (fun lx lx' => lx.runtime = .tabular ∧ lx'.runtime = .nfa ∧
          ∀ input, lx.tokens input = lx'.tokens input)
        (Lexer.build ps eof .tabular) (Lexer.build ps eof .nfa)) ∧
    ∀ (α : Type) (b : Blueprint α),
      Alike (Blueprint.Twins .tabular .nfa) (b.setRuntime .tabular).build
        (b.setRuntime .nfa).build := by
  constructor
  · intro ps eof
    refine (Lexer.build_alike ps eof .tabular .nfa).imp ?_
    rintro lx lx' ⟨htabular, hnfa, hreal, hreal'⟩
    exact ⟨htabular, hnfa, hreal.tokens_eq hreal'⟩
  · exact fun α b => b.build_alike .tabular .nfa

end ShiftReduce
