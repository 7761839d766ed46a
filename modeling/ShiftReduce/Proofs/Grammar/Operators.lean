import Mathlib.Data.List.Perm.Basic
import ShiftReduce.Lalr.Action
import ShiftReduce.Proofs.Grammar.Declared
import ShiftReduce.Proofs.Grammar.Tree

/-!
# Infix operators

`Draft.Operators` are the declarations of expressions: one nonterminal `E`, an atom, and a production
`E = E op E` for each operator, in any order, where each operator is a member of one precedence group.
They make a grammar (`Draft.Operators.exists_build`), and `Grammar.IsInfix` collects what is known of it.

Which operator may stand at the root of a child of which is a matter of their groups
(`PrecGroup.Takes`), and `Tree.Grouped` are the trees in which all children are as they may be. The same
relation is what precedence goes by between a production that has been read and an operator that comes
(`Grammar.IsInfix.exists_preference`).
-/

namespace ShiftReduce

/-- An operator of the group `child` may stand at the root of a child of one of the group `parent`, on
the given side: its group is higher, or it is the same one and associates to this side. -/
def PrecGroup.Takes (parent : PrecGroup) (side : Assoc) (child : PrecGroup) : Prop :=
  parent.level < child.level ∨ parent = child ∧ parent.assoc = side

instance (parent : PrecGroup) (side : Assoc) (child : PrecGroup) :
    Decidable (parent.Takes side child) :=
  inferInstanceAs (Decidable (_ ∨ _ ∧ _))

/-- What is taken on one side takes on the other side only what may stand in its own place. -/
theorem PrecGroup.Takes.trans {a b c : PrecGroup} {side side' : Assoc} (h : a.Takes side b)
    (h' : b.Takes side' c) (hne : side ≠ side') : a.Takes side c := by
  rcases h with h | ⟨rfl, hside⟩
  · rcases h' with h' | ⟨rfl, -⟩
    · exact Or.inl (Nat.lt_trans h h')
    · exact Or.inl h
  · rcases h' with h' | ⟨rfl, hside'⟩
    · exact Or.inl h'
    · exact absurd (hside.symm.trans hside') hne

namespace Tree

/-- The operator at the root of a tree, if it has two operands. -/
def operator? : Tree → Option Nat
  | .node _ [_, .leaf op, _] => some op.1
  | _ => none

/-- The trees of atoms and binary operators in which every operator takes the operators at the roots of
its children. -/
inductive Grouped (takes : Assoc → Nat → Nat → Prop) : Tree → Prop
  | atom (prod : Nat) (word : Word) : Grouped takes (.node prod [.leaf word])
  | binary {prod : Nat} {op : Word} {left right : Tree} (hleft : Grouped takes left)
    (hright : Grouped takes right) (onLeft : ∀ q ∈ left.operator?, takes .left op.1 q)
    (onRight : ∀ q ∈ right.operator?, takes .right op.1 q) :
    Grouped takes (.node prod [left, .leaf op, right])

end Tree

namespace Grammar

variable {g : Grammar} {atom : Nat} {ops : List Nat}

/-- The operator `op` takes the operator `q` on the given side. -/
def Takes (g : Grammar) (side : Assoc) (op q : Nat) : Prop :=
  ∃ a b, g.terminalPrec op = some a ∧ g.terminalPrec q = some b ∧ a.Takes side b

theorem Takes.trans {p q r : Nat} {side side' : Assoc} (h : g.Takes side p q)
    (h' : g.Takes side' q r) (hne : side ≠ side') : g.Takes side p r := by
  obtain ⟨a, b, ha, hb, hab⟩ := h
  obtain ⟨b', c, hb', hc, hbc⟩ := h'
  obtain rfl : b = b' := Option.some.inj (hb.symm.trans hb')
  exact ⟨a, c, ha, hc, hab.trans hbc hne⟩

/-- The right-hand side `E op E`. -/
def binary (g : Grammar) (op : Nat) : List Symbol :=
  [.nonterminal g.start, .terminal op, .nonterminal g.start]

/-- A grammar with one production `E = atom` and one production `E = E op E` for each operator, which
has the group of its operator. -/
structure IsInfix (g : Grammar) (atom : Nat) (ops : List Nat) : Prop where
  wellFormed : g.WellFormed
  listsAll : g.ListsAll
  lhs : ∀ p < g.prods.size, g.lhs p = g.start
  rhs : ∀ p < g.prods.size, g.rhs p = [.terminal atom] ∨ ∃ op ∈ ops, g.rhs p = g.binary op
  exists_atom : ∃ p < g.prods.size, g.rhs p = [.terminal atom]
  exists_binary : ∀ op ∈ ops, ∃ p < g.prods.size, g.rhs p = g.binary op
  rhs_inj : ∀ p < g.prods.size, ∀ q < g.prods.size, g.rhs p = g.rhs q → p = q
  atom_not_mem : atom ∉ ops
  prec : ∀ p < g.prods.size, ∀ op, g.rhs p = g.binary op → g.prodPrec p = g.terminalPrec op
  grouped : ∀ op ∈ ops, ∃ group, g.terminalPrec op = some group
  level_inj : ∀ {t t' : Nat} {a b : PrecGroup}, g.terminalPrec t = some a →
    g.terminalPrec t' = some b → a.level = b.level → a = b

/-- The choice between two groups, of which equal levels belong to the same group. -/
theorem preference_eq_some {p t : Nat} {a b : PrecGroup} (hp : g.prodPrec p = some a)
    (ht : g.terminalPrec t = some b) (hsame : a.level = b.level → a = b) :
    ∃ choice, preference g p t = some choice ∧ (choice = .shift ↔ a.Takes .right b) ∧
      (choice = .reduce ↔ b.Takes .left a) := by
  rw [preference, hp, ht]
  simp only [PrecGroup.Takes]
  by_cases heq : a.level = b.level
  · obtain rfl := hsame heq
    cases hassoc : a.assoc with
    | left => exact ⟨.reduce, by simp⟩
    | right => exact ⟨.shift, by simp⟩
    | none => exact ⟨.neither, by simp⟩
  · have hne : a ≠ b := fun hab => heq (hab ▸ rfl)
    rw [if_neg heq]
    by_cases hlt : a.level < b.level
    · refine ⟨.shift, if_pos hlt, ?_, ?_⟩
      · simp [hlt]
      · simp [Nat.not_lt_of_lt hlt, hne.symm]
    · have hgt : b.level < a.level := by omega
      refine ⟨.reduce, if_neg hlt, ?_, ?_⟩
      · simp [hlt, hne]
      · simp [hgt]

theorem preference_augment (g : Grammar) (p t : Nat) :
    preference g.augment p t = preference g p t := by
  rw [preference, preference, prodPrec_augment]
  rfl

/-- Between `E op E` and an operator that comes, precedence goes by which of the two takes the other. -/
theorem IsInfix.exists_preference (h : g.IsInfix atom ops) {p op q : Nat} (hp : p < g.prods.size)
    (hrhs : g.rhs p = g.binary op) (hop : op ∈ ops) (hq : q ∈ ops) :
    ∃ choice, preference g.augment p q = some choice ∧ (choice = .shift ↔ g.Takes .right op q) ∧
      (choice = .reduce ↔ g.Takes .left q op) := by
  obtain ⟨a, ha⟩ := h.grouped op hop
  obtain ⟨b, hb⟩ := h.grouped q hq
  have htakes : ∀ {side : Assoc} {s t : Nat} {c d : PrecGroup}, g.terminalPrec s = some c →
      g.terminalPrec t = some d → (g.Takes side s t ↔ c.Takes side d) := by
    intro side s t c d hc hd
    simp [Takes, hc, hd]
  rw [preference_augment, htakes ha hb, htakes hb ha]
  exact preference_eq_some ((h.prec p hp op hrhs).trans ha) hb (h.level_inj ha hb)

end Grammar

namespace Draft

variable {d : Draft} {atom : Nat} {ops : List Nat}

/-- The operator `op` was declared so that it takes the operator `q` on the given side. -/
def Takes (d : Draft) (side : Assoc) (op q : Nat) : Prop :=
  ∃ a b, d.InGroup op a ∧ d.InGroup q b ∧ a.Takes side b

theorem Declared.takes_eq (h : d.Declared) {start : Nat} {g : Grammar}
    (hg : d.build start = .ok g) : d.Takes = g.Takes := by
  funext side op q
  simp only [Takes, Grammar.Takes, h.terminalPrec_eq_some_iff hg]

/-- The production `E = atom`. -/
def atomProd (atom : Nat) : Production := ⟨0, [.terminal atom], none⟩

/-- The production `E = E op E`. -/
def binaryProd (op : Nat) : Production := ⟨0, [.nonterminal 0, .terminal op, .nonterminal 0], none⟩

/-- The declarations of expressions: the only nonterminal `E` with the production `E = atom` and with
one production `E = E op E` for each operator, in any order and without groups of their own. Each
operator is a member of a group, and no terminal is a member twice. -/
structure Operators (d : Draft) (atom : Nat) (ops : List Nat) : Prop where
  declared : d.Declared
  one : d.nts.size = 1
  prods : d.prods.toList.Perm (atomProd atom :: ops.map binaryProd)
  listed : ∀ p < d.prods.size, ∃ nt, d.nts[0]? = some nt ∧ p ∈ nt.prods
  distinct : (atom :: ops).Nodup
  known : ∀ t ∈ atom :: ops, t < d.terminals.size
  grouped : ∀ op ∈ ops, ∃ i, (i, op) ∈ d.members
  members : ∀ m ∈ d.members, m.2 < d.terminals.size
  once : (d.members.map Prod.snd).Nodup

namespace Operators

theorem mem_prods (h : d.Operators atom ops) {prod : Production} :
    prod ∈ d.prods.toList ↔ prod = atomProd atom ∨ ∃ op ∈ ops, prod = binaryProd op := by
  rw [h.prods.mem_iff, List.mem_cons, List.mem_map]
  simp only [eq_comm]

theorem exists_settle (h : d.Operators atom ops) : ∃ d', d.settle 0 = .ok d' := by
  have hatom : atom < d.terminals.size := h.known atom List.mem_cons_self
  have hop : ∀ op ∈ ops, op < d.terminals.size := fun op hop =>
    h.known op (List.mem_cons_of_mem _ hop)
  refine h.declared.ungrouped.exists_settle ?_ h.members h.once fun prod hprod => ?_
  · rw [h.one]
    exact Nat.one_pos
  · rw [h.one]
    rcases h.mem_prods.1 hprod with rfl | ⟨op, hmem, rfl⟩
    · exact ⟨Nat.one_pos, by simp [atomProd, knows, hatom]⟩
    · exact ⟨Nat.one_pos, by simp [binaryProd, knows, hop op hmem]⟩

theorem build_eq_ok (h : d.Operators atom ops) {d' : Draft} (hsettle : d.settle 0 = .ok d') :
    d.build 0 = .ok (d'.finish 0) := by
  refine build_eq_finish hsettle fun n nt hnt _ hnil => ?_
  rw [(settles_of_settle hsettle).nts] at hnt
  obtain ⟨hlt, -⟩ := Array.getElem?_eq_some_iff.1 hnt
  obtain rfl : n = 0 := by
    rw [h.one] at hlt
    omega
  -- the production of the atom is on the list
  have hpos : 0 < d.prods.size := by
    rw [← Array.length_toList, h.prods.length_eq]
    exact Nat.succ_pos _
  obtain ⟨nt', hnt', hmem⟩ := h.listed 0 hpos
  obtain rfl : nt = nt' := Option.some.inj (hnt.symm.trans hnt')
  rw [hnil] at hmem
  exact absurd hmem List.not_mem_nil

variable {d' : Draft}

/-- The productions of the grammar are those that were declared. -/
theorem exists_prod (h : d.Operators atom ops) (hd' : Settles d d' 0) {p : Nat}
    (hp : p < (d'.finish 0).prods.size) : ∃ prod, d.prods[p]? = some prod ∧
      (d'.finish 0).lhs p = 0 ∧ (d'.finish 0).rhs p = prod.symbols ∧
      (prod = atomProd atom ∨ ∃ op ∈ ops, prod = binaryProd op) := by
  obtain ⟨prod, hprod, hlhs, hrhs, -⟩ := hd'.getElem?_prods hp
  have hmem : prod ∈ d.prods.toList := by
    rw [Array.mem_toList_iff]
    exact Array.mem_of_getElem? hprod
  have hcases := h.mem_prods.1 hmem
  refine ⟨prod, hprod, ?_, hrhs, hcases⟩
  rcases hcases with rfl | ⟨op, -, rfl⟩
  · exact hlhs
  · exact hlhs

/-- A production that was declared is one of the grammar. -/
theorem exists_of_mem (hd' : Settles d d' 0) {prod : Production} (hprod : prod ∈ d.prods.toList) :
    ∃ p < (d'.finish 0).prods.size, (d'.finish 0).rhs p = prod.symbols := by
  obtain ⟨p, hp, rfl⟩ := Array.getElem_of_mem (Array.mem_toList_iff.1 hprod)
  obtain ⟨prod', hprod', -, hsymbols, -⟩ := hd'.prods (Array.getElem?_eq_getElem hp)
  refine ⟨p, Nat.lt_of_lt_of_eq hp hd'.size_prods.symm, ?_⟩
  rw [← hsymbols]
  exact Grammar.rhs_of_getElem? hprod'

/-- No two productions have the same right-hand side. -/
theorem rhs_inj (h : d.Operators atom ops) (hd' : Settles d d' 0) {p q : Nat}
    (hp : p < (d'.finish 0).prods.size) (hq : q < (d'.finish 0).prods.size)
    (heq : (d'.finish 0).rhs p = (d'.finish 0).rhs q) : p = q := by
  obtain ⟨prod, hprod, -, hrhs, hcases⟩ := h.exists_prod hd' hp
  obtain ⟨prod', hprod', -, hrhs', hcases'⟩ := h.exists_prod hd' hq
  rw [hrhs, hrhs'] at heq
  have hsame : prod = prod' := by
    rcases hcases with rfl | ⟨op, -, rfl⟩ <;> rcases hcases' with rfl | ⟨op', -, rfl⟩
    · rfl
    · simp [atomProd, binaryProd] at heq
    · simp [atomProd, binaryProd] at heq
    · simp only [binaryProd, List.cons.injEq, Symbol.terminal.injEq] at heq
      rw [heq.2.1]
  -- each production was declared once
  have hnodup : d.prods.toList.Nodup := by
    obtain ⟨hatom, hops⟩ := List.nodup_cons.1 h.distinct
    refine h.prods.nodup_iff.2 (List.nodup_cons.2 ⟨?_, hops.map ?_⟩)
    · rw [List.mem_map]
      rintro ⟨op, -, heq⟩
      exact absurd (congrArg Production.symbols heq) (by simp [atomProd, binaryProd])
    · intro op op' heq
      have hsymbols := congrArg Production.symbols heq
      simp only [binaryProd, List.cons.injEq, Symbol.terminal.injEq] at hsymbols
      exact hsymbols.2.1
  rw [← Array.getElem?_toList] at hprod hprod'
  obtain ⟨hlt, -⟩ := List.getElem?_eq_some_iff.1 hprod
  exact (List.getElem?_inj hlt hnodup).1 (hprod.trans ((congrArg some hsame).trans hprod'.symm))

/-- The only terminal of a production is its operator. -/
theorem findSome?_binaryProd (ts : Array Terminal) (op : Nat) :
    (binaryProd op).symbols.reverse.findSome? (symbolGroup ts) = ts[op]?.bind Terminal.prec := by
  change [Symbol.nonterminal 0, .terminal op, .nonterminal 0].findSome? (symbolGroup ts) = _
  simp only [List.findSome?_cons, symbolGroup, List.findSome?_nil]
  cases ts[op]?.bind Terminal.prec with
  | none => rfl
  | some i => rfl

/-- A production has the group of its operator. -/
theorem prodPrec_eq (h : d.Operators atom ops) (hd' : Settles d d' 0) {p op : Nat}
    (hp : p < (d'.finish 0).prods.size) (hrhs : (d'.finish 0).rhs p = (d'.finish 0).binary op) :
    (d'.finish 0).prodPrec p = (d'.finish 0).terminalPrec op := by
  obtain ⟨prod, hprod, -, hsymbols, hcases⟩ := h.exists_prod hd' hp
  rw [hrhs] at hsymbols
  obtain rfl : prod = binaryProd op := by
    rcases hcases with rfl | ⟨op', -, rfl⟩
    · exact absurd hsymbols (by simp [atomProd, Grammar.binary])
    · simp only [binaryProd, Grammar.binary, List.cons.injEq, Symbol.terminal.injEq] at hsymbols
      rw [hsymbols.2.1]
  obtain ⟨prod', hprod', hsettled⟩ := hd'.settled hprod
  have hprec : prod'.prec = d'.terminals[op]?.bind Terminal.prec := by
    rw [settleProd] at hsettled
    split at hsettled
    · rw [← Except.ok.inj hsettled]
      exact findSome?_binaryProd _ _
    · exact absurd hsettled (by simp)
  rw [terminalPrec_finish, ← hprec, Grammar.prodPrec]
  have hget : (d'.finish 0).prods[p]? = some prod' := hprod'
  rw [hget]
  rfl

/-- The declarations of expressions make a grammar. -/
theorem exists_build (h : d.Operators atom ops) :
    ∃ g, d.build 0 = .ok g ∧ g.IsInfix atom ops := by
  obtain ⟨d', hsettle⟩ := h.exists_settle
  have hd' := settles_of_settle hsettle
  have hbuild := h.build_eq_ok hsettle
  refine ⟨d'.finish 0, hbuild, ?_⟩
  obtain ⟨hatom, -⟩ := List.nodup_cons.1 h.distinct
  refine
    { wellFormed := h.declared.consistent.wellFormed hbuild
      listsAll := ?_
      lhs := ?_
      rhs := ?_
      exists_atom := exists_of_mem hd' (h.mem_prods.2 (Or.inl rfl))
      exists_binary := fun op hop => exists_of_mem hd' (h.mem_prods.2 (Or.inr ⟨op, hop, rfl⟩))
      rhs_inj := fun p hp q hq => h.rhs_inj hd' hp hq
      atom_not_mem := hatom
      prec := fun p hp op => h.prodPrec_eq hd' hp
      grouped := ?_
      level_inj := ?_ }
  · intro p hp
    obtain ⟨prod, -, hlhs, -⟩ := h.exists_prod hd' hp
    obtain ⟨nt, hnt, hmem⟩ := h.listed p (Nat.lt_of_lt_of_eq hp hd'.size_prods)
    have hnt' : (d'.finish 0).nts[0]? = some nt := (congrArg (·[0]?) hd'.nts).trans hnt
    rw [hlhs, Grammar.prodsOf, hnt']
    exact hmem
  · intro p hp
    obtain ⟨prod, -, hlhs, -⟩ := h.exists_prod hd' hp
    exact hlhs
  · intro p hp
    obtain ⟨prod, -, -, hrhs, rfl | ⟨op, hop, rfl⟩⟩ := h.exists_prod hd' hp
    · exact Or.inl hrhs
    · exact Or.inr ⟨op, hop, hrhs⟩
  · intro op hop
    obtain ⟨i, hi⟩ := h.grouped op hop
    have hlt := h.declared.ungrouped.member _ hi
    exact ⟨_, (h.declared.terminalPrec_eq_some_iff hbuild).2 ⟨i, hi, Array.getElem?_eq_getElem hlt⟩⟩
  · intro t t' a b ha hb hlevel
    obtain ⟨i, -, hi⟩ := (h.declared.terminalPrec_eq_some_iff hbuild).1 ha
    obtain ⟨j, -, hj⟩ := (h.declared.terminalPrec_eq_some_iff hbuild).1 hb
    rw [h.declared.ungrouped.level hi, h.declared.ungrouped.level hj] at hlevel
    subst hlevel
    exact Option.some.inj (hi.symm.trans hj)

end Operators

end Draft

end ShiftReduce
