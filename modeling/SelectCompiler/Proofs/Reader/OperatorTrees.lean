import SelectCompiler.Proofs.Reader.Correct
import SelectCompiler.Proofs.Reader.ValueRuns

/-!
Expressions of operators over columns. Main statement: all runs in the text of such an expression
are uniform, whatever depth its operators are at.
-/

namespace SelectCompiler

open Token (after enclosedIf qualified)

variable {d : Dialect} {o : Options}

namespace Expr

/-- Operators over columns: `NOT`, the sign, and all binary operators. -/
inductive IsOperatorTree : Expr → Prop where
  | column (c : Column) : IsOperatorTree (.column c)
  | not {operand : Expr} (type : SqlType) (h : IsOperatorTree operand) :
    IsOperatorTree (.unary .not operand type)
  | negate {operand : Expr} (type : SqlType) (h : IsOperatorTree operand) :
    IsOperatorTree (.unary .negate operand type)
  | binary {left right : Expr} (op : BinaryOp) (type : SqlType) (hl : IsOperatorTree left)
    (hr : IsOperatorTree right) : IsOperatorTree (.binary left op right type)

namespace IsOperatorTree

variable {e : Expr}

theorem isReadable (h : e.IsOperatorTree) : e.IsReadable fun _ _ => True := by
  induction h with
  | column c => exact .column c
  | not type h ih => exact .unary .not type ih
  | negate type h ih => exact .unary .negate type ih
  | binary op type hl hr ihl ihr => exact .binary type ihl ihr trivial

theorem faults_eq_nil (h : e.IsOperatorTree) : e.faults d o = [] := by
  induction h with
  | column c => rfl
  | not type h ih => rw [faults, ih]
  | negate type h ih => rw [faults, ih]
  | binary op type hl hr ihl ihr => rw [faults, ihl, ihr, List.append_nil]

theorem leaves_ordinary (h : e.IsOperatorTree) (order : PagingOrder) :
    ∀ l ∈ e.leaves order, l.IsOrdinary := by
  induction h with
  | column c => simp [leaves, Leaf.IsOrdinary]
  | not type h ih => simpa [leaves, UnaryOp.leaves] using ih
  | negate type h ih => simpa [leaves, UnaryOp.leaves] using ih
  | binary op type hl hr ihl ihr =>
    rw [leaves]
    exact List.forall_mem_append.2 ⟨ihl, ihr⟩

theorem tokens_ordinary (hd : d.BuiltIn) (h : e.IsOperatorTree) :
    ∀ t ∈ e.tokens d o, t.IsOrdinary :=
  ordinary_tokens ((contents_step hd o).ofExpr e h.faults_eq_nil) (h.leaves_ordinary _)

end IsOperatorTree

/-! ### Runs of an expression -/

/-- The operator on top is alike. -/
def Leads : Expr → BinaryOp → Prop
  | .binary _ op _ _, a => op.Alike a
  | _, _ => False

/-- The runs of an expression are uniform, and what it adds to a run in front of it is like the
operator on its top. -/
structure HasRuns (d : Dialect) (o : Options) (e : Expr) : Prop where
  alone : ∀ n, ∃ run, IsUniform run ∧ Carries (d.lexemes n (e.tokens d o)) [] run
  joined : 5 ≤ e.rank → ∀ n, ∃ ops, (∀ a ∈ ops, e.Leads a) ∧
    ∀ run, Carries (d.lexemes n (e.tokens d o)) run (run ++ ops)

namespace HasRuns

variable {e left right : Expr}

theorem of_joined (high : 5 ≤ e.rank) (h : ∀ n, ∃ ops, (∀ a ∈ ops, e.Leads a) ∧
    ∀ run, Carries (d.lexemes n (e.tokens d o)) run (run ++ ops)) : e.HasRuns d o := by
  refine ⟨fun n => ?_, fun _ => h⟩
  obtain ⟨ops, leads, carries⟩ := h n
  refine ⟨ops, ?_, carries []⟩
  cases e with
  | binary left op right type => exact isUniform_of_alike (decide_eq_true high) leads
  | _ => exact .inl fun a ha => (leads a ha).elim

theorem of_primary (high : 5 ≤ e.rank)
    (h : ∀ n run, Carries (d.lexemes n (e.tokens d o)) run run) : e.HasRuns d o :=
  .of_joined high fun n => ⟨[], nofun, fun run => by simpa using h n run⟩

theorem enclosedIf_alone (h : e.HasRuns d o) (needed : Bool) (n : Nat) :
    ∃ run, IsUniform run ∧ Carries (d.lexemes n (enclosedIf needed (e.tokens d o))) [] run := by
  obtain ⟨run, uniform, carries⟩ := h.alone n
  rw [Dialect.lexemes_enclosedIf]
  cases needed with
  | false => exact ⟨run, uniform, carries⟩
  | true => exact ⟨[], isUniform_nil, carries.enclosed uniform []⟩

/-- An operand adds to the run of an operator only what is like the operator: what is on top of it
does not mix with the operator, unless there are parentheses. -/
theorem enclosedIf_joined (h : e.HasRuns d o) {op : BinaryOp} (value : op.isValueOperator = true)
    {needed : Bool} (bare : needed = false → op.rank ≤ e.rank ∧ e.mixesWith op = false) (n : Nat) :
    ∃ ops, (∀ a ∈ ops, op.Alike a) ∧
      ∀ run, Carries (d.lexemes n (enclosedIf needed (e.tokens d o))) run (run ++ ops) := by
  have high := BinaryOp.rank_of_value value
  rw [Dialect.lexemes_enclosedIf]
  cases needed with
  | true =>
    obtain ⟨run, uniform, carries⟩ := h.alone n
    exact ⟨[], nofun, fun outside => by simpa using carries.enclosed uniform outside⟩
  | false =>
    obtain ⟨le, mixes⟩ := bare rfl
    obtain ⟨ops, leads, carries⟩ := h.joined (by omega) n
    refine ⟨ops, fun a ha => ?_, carries⟩
    have lead := leads a ha
    cases e with
    | binary left inner right type =>
      have inside : inner.isValueOperator = true := decide_eq_true (Nat.lt_of_lt_of_le high le)
      exact (BinaryOp.alike_of_not_mixesWith value inside mixes).trans lead
    | _ => exact lead.elim

theorem column (c : Column) : (Expr.column c).HasRuns d o := by
  refine .of_primary (by simp [Expr.rank]) fun n run => ?_
  rw [tokens]
  cases givenName c.table with
  | none => simpa [qualified] using Carries.name c.name run
  | some owner => simpa [qualified] using Carries.owned owner c.name run

theorem not (h : e.HasRuns d o) (type : SqlType) : (Expr.unary .not e type).HasRuns d o := by
  refine ⟨fun n => ?_, fun high => absurd high (by simp [Expr.rank])⟩
  obtain ⟨run, uniform, carries⟩ := h.enclosedIf_alone e.enclosedUnderNot n
  refine ⟨run, uniform, ?_⟩
  rw [tokens, Dialect.lexemes_reserved (l := .keyword .not) (by decide), Dialect.lexemes_space]
  exact carries.not

theorem negate (h : e.HasRuns d o) (type : SqlType) : (Expr.unary .negate e type).HasRuns d o := by
  refine .of_primary (by simp [Expr.rank]) fun n run => ?_
  rw [tokens, Dialect.lexemes_minus, Dialect.lexemes_enclosedIf]
  refine Carries.negate ?_
  cases needed : e.enclosedUnderMinus with
  | true =>
    obtain ⟨inside, uniform, carries⟩ := h.alone n
    exact carries.enclosed uniform run
  | false =>
    have high : 8 ≤ e.rank := by
      simp only [enclosedUnderMinus, Bool.or_eq_false_iff, decide_eq_false_iff_not] at needed
      omega
    obtain ⟨ops, leads, carries⟩ := h.joined (by omega) n
    cases e with
    | binary left op right type => exact absurd high (Nat.not_le_of_lt op.rank_lt)
    | _ =>
      have none : ops = [] := List.eq_nil_iff_forall_not_mem.2 leads
      simpa [none] using carries run

theorem binaryCall {op : BinaryOp} (type : SqlType) (call : d.calls op = true)
    (hl : left.HasRuns d o) (hr : right.HasRuns d o) :
    (Expr.binary left op right type).HasRuns d o := by
  have high : 5 ≤ (Expr.binary left op right type).rank := by
    obtain rfl : op = .concat := by simpa using (Bool.and_eq_true_iff.1 call).1
    exact Nat.le_refl 5
  refine .of_primary high fun n run => ?_
  obtain ⟨first, uniform, carries⟩ := hl.alone n
  obtain ⟨second, uniform', carries'⟩ := hr.alone (after n (left.tokens d o))
  rw [lexemes_binaryCall left right type n call]
  exact carries.call "CONCAT" uniform carries' uniform' run

theorem binaryInfix {op : BinaryOp} (type : SqlType) (spells : d.Spells op)
    (infix' : d.calls op = false) (hl : left.HasRuns d o) (hr : right.HasRuns d o) :
    (Expr.binary left op right type).HasRuns d o := by
  have lexemes (n : Nat) := lexemes_binaryInfix (o := o) left right type n spells infix'
  cases value : op.isValueOperator with
  | true =>
    have bareLeft (bare : left.enclosedOnLeft op = false) :
        op.rank ≤ left.rank ∧ left.mixesWith op = false := by
      simp only [enclosedOnLeft, Bool.or_eq_false_iff, decide_eq_false_iff_not] at bare
      exact ⟨Nat.le_of_not_lt bare.1.1, bare.2⟩
    have bareRight (bare : right.enclosedOnRight op = false) :
        op.rank ≤ right.rank ∧ right.mixesWith op = false := by
      simp only [enclosedOnRight, Bool.or_eq_false_iff, decide_eq_false_iff_not] at bare
      exact ⟨Nat.le_of_not_lt bare.1.1, bare.2⟩
    refine .of_joined (of_decide_eq_true value) fun n => ?_
    obtain ⟨first, leads, carries⟩ := hl.enclosedIf_joined value bareLeft n
    obtain ⟨second, leads', carries'⟩ :=
      hr.enclosedIf_joined value bareRight (after n (left.tokens d o))
    refine ⟨first ++ op :: second, fun a ha => ?_, fun run => ?_⟩
    · rcases List.mem_append.1 ha with ha | ha
      · exact leads a ha
      · rcases List.mem_cons.1 ha with rfl | ha
        · exact .inl rfl
        · exact leads' a ha
    · rw [lexemes]
      simpa using (carries run).value value (carries' (run ++ first ++ [op]))
  | false =>
    have low := BinaryOp.rank_of_not_value value
    refine ⟨fun n => ?_, fun high => absurd high (by simp only [Expr.rank]; omega)⟩
    obtain ⟨first, uniform, carries⟩ := hl.enclosedIf_alone (left.enclosedOnLeft op) n
    obtain ⟨second, uniform', carries'⟩ := hr.enclosedIf_alone (right.enclosedOnRight op)
      (after n (left.tokens d o))
    rw [lexemes]
    exact ⟨second, uniform', carries.other uniform value carries'⟩

end HasRuns

theorem IsOperatorTree.hasRuns {e : Expr} (spells : ∀ op, d.Spells op) (h : e.IsOperatorTree) :
    e.HasRuns d o := by
  induction h with
  | column c => exact .column c
  | not type h ih => exact ih.not type
  | negate type h ih => exact ih.negate type
  | binary op type hl hr ihl ihr =>
    cases call : d.calls op with
    | true => exact .binaryCall type call ihl ihr
    | false => exact .binaryInfix type (spells op) call ihl ihr

end Expr

end SelectCompiler
