import SelectCompiler.Proofs.Tree.Nodes
import SelectCompiler.Proofs.Tree.Parts

/-!
Trees of one shape. A revision replaces constants, bound values, declared types and flags
throughout a tree and leaves everything else alone; two trees that a revision makes equal differ
in nothing but what it replaces.
-/

namespace SelectCompiler

structure Revision where
  literal : Literal → Literal := id
  /-- The change of a constant that stands directly behind a minus sign. -/
  negated : Literal → Literal := literal
  parameter : Parameter → Parameter := id
  /-- The change of the types that are declared for columns, operators, calls and cases. -/
  type : SqlType → SqlType := id
  /-- The change of what is said about nulls. -/
  flag : Bool → Bool := id

/-- The revised operand of a unary operator. -/
def Revision.operand (r : Revision) : UnaryOp → (operand revised : Expr) → Expr
  | .negate, .literal l, _ => .literal (r.negated l)
  | _, _, revised => revised

mutual

def Expr.revise (r : Revision) : Expr → Expr
  | .column c => .column { c with type := r.type c.type, nullable := r.flag c.nullable }
  | .literal l => .literal (r.literal l)
  | .parameter p => .parameter (r.parameter p)
  | .unary op operand type => .unary op (r.operand op operand (operand.revise r)) (r.type type)
  | .binary left op right type => .binary (left.revise r) op (right.revise r) (r.type type)
  | .function ⟨name, schema, isBuiltIn, isNiladic, isNullable, propagatesNull, arguments, type⟩ =>
    .function ⟨name, schema, isBuiltIn, isNiladic, r.flag isNullable, propagatesNull.map r.flag,
      Expr.reviseEach r arguments, r.type type⟩
  | .subquery select => .subquery (select.revise r)
  | .exists subquery negated => .exists (subquery.revise r) negated
  | .inList item values negated => .inList (item.revise r) (Expr.reviseEach r values) negated
  | .inSelect item values negated => .inSelect (item.revise r) (values.revise r) negated
  | .like item pattern escape negated =>
    .like (item.revise r) (pattern.revise r) (Expr.reviseOption r escape) negated
  | .case operand whens otherwise type =>
    .case (Expr.reviseOption r operand) (Expr.reviseWhens r whens) (Expr.reviseOption r otherwise)
      (r.type type)
  | .fragment text => .fragment text

def Expr.reviseOption (r : Revision) : Option Expr → Option Expr
  | some e => some (e.revise r)
  | none => none

def Expr.reviseEach (r : Revision) : List Expr → List Expr
  | [] => []
  | e :: es => e.revise r :: Expr.reviseEach r es

def Expr.reviseWhens (r : Revision) : List (Expr × Expr) → List (Expr × Expr)
  | [] => []
  | (condition, result) :: whens =>
    (condition.revise r, result.revise r) :: Expr.reviseWhens r whens

def Projection.reviseEach (r : Revision) : List Projection → List Projection
  | [] => []
  | ⟨expr, aliasName⟩ :: ps => ⟨expr.revise r, aliasName⟩ :: Projection.reviseEach r ps

def SortTerm.reviseEach (r : Revision) : List SortTerm → List SortTerm
  | [] => []
  | ⟨expr, ascending⟩ :: ts => ⟨expr.revise r, ascending⟩ :: SortTerm.reviseEach r ts

def Select.revise (r : Revision) : Select → Select
  | ⟨distinct, projections, sources, joins, predicate, groupBy, having, orderings, limit, offset⟩ =>
    ⟨distinct, Projection.reviseEach r projections, Source.reviseEach r sources,
      Join.reviseEach r joins, Expr.reviseOption r predicate, Expr.reviseEach r groupBy,
      Expr.reviseOption r having, SortTerm.reviseEach r orderings, Expr.reviseOption r limit,
      Expr.reviseOption r offset⟩

def Source.revise (r : Revision) : Source → Source
  | .table name schema aliasName => .table name schema aliasName
  | .derived select aliasName => .derived (select.revise r) aliasName
  | .function ⟨name, schema, isBuiltIn, arguments, aliasName⟩ =>
    .function ⟨name, schema, isBuiltIn, Expr.reviseEach r arguments, aliasName⟩
  | .set ⟨operator, distinct, left, right, aliasName⟩ =>
    .set ⟨operator, distinct, left.revise r, right.revise r, aliasName⟩

def Source.reviseEach (r : Revision) : List Source → List Source
  | [] => []
  | s :: ss => s.revise r :: Source.reviseEach r ss

def Join.reviseEach (r : Revision) : List Join → List Join
  | [] => []
  | ⟨kind, source, predicate⟩ :: js =>
    ⟨kind, source.revise r, Expr.reviseOption r predicate⟩ :: Join.reviseEach r js

end

/-! ### Revised parts -/

variable (r : Revision)

def Projection.revise (p : Projection) : Projection := { p with expr := p.expr.revise r }

def SortTerm.revise (t : SortTerm) : SortTerm := { t with expr := t.expr.revise r }

def Join.revise (j : Join) : Join :=
  { j with source := j.source.revise r, predicate := j.predicate.map (Expr.revise r) }

@[simp] theorem Expr.reviseOption_eq (e? : Option Expr) :
    Expr.reviseOption r e? = e?.map (Expr.revise r) := by
  cases e? <;> rfl

@[simp] theorem Expr.reviseEach_eq (es : List Expr) :
    Expr.reviseEach r es = es.map (Expr.revise r) := by
  induction es with
  | nil => rfl
  | cons e es ih => rw [Expr.reviseEach, ih, List.map_cons]

@[simp] theorem Expr.reviseWhens_eq (ws : List (Expr × Expr)) :
    Expr.reviseWhens r ws = ws.map fun w => (w.1.revise r, w.2.revise r) := by
  induction ws with
  | nil => rfl
  | cons w ws ih => rw [Expr.reviseWhens, ih, List.map_cons]

@[simp] theorem Projection.reviseEach_eq (ps : List Projection) :
    Projection.reviseEach r ps = ps.map (Projection.revise r) := by
  induction ps with
  | nil => rfl
  | cons p ps ih =>
    obtain ⟨expr, aliasName⟩ := p
    rw [Projection.reviseEach, ih]
    rfl

@[simp] theorem SortTerm.reviseEach_eq (ts : List SortTerm) :
    SortTerm.reviseEach r ts = ts.map (SortTerm.revise r) := by
  induction ts with
  | nil => rfl
  | cons t ts ih =>
    obtain ⟨expr, ascending⟩ := t
    rw [SortTerm.reviseEach, ih]
    rfl

@[simp] theorem Source.reviseEach_eq (ss : List Source) :
    Source.reviseEach r ss = ss.map (Source.revise r) := by
  induction ss with
  | nil => rfl
  | cons s ss ih => rw [Source.reviseEach, ih, List.map_cons]

@[simp] theorem Join.reviseEach_eq (js : List Join) :
    Join.reviseEach r js = js.map (Join.revise r) := by
  induction js with
  | nil => rfl
  | cons j js ih =>
    obtain ⟨kind, source, predicate⟩ := j
    rw [Join.reviseEach, ih, Expr.reviseOption_eq]
    rfl

theorem FunctionCall.revise_eq (call : FunctionCall) :
    (Expr.function call).revise r =
      .function { call with
        isNullable := r.flag call.isNullable
        propagatesNull := call.propagatesNull.map r.flag
        arguments := call.arguments.map (Expr.revise r)
        type := r.type call.type } := by
  cases call
  rw [Expr.revise, Expr.reviseEach_eq]

theorem TableFunction.revise_eq (call : TableFunction) :
    (Source.function call).revise r =
      .function { call with arguments := call.arguments.map (Expr.revise r) } := by
  cases call
  rw [Source.revise, Expr.reviseEach_eq]

theorem SetOperation.revise_eq (operation : SetOperation) :
    (Source.set operation).revise r =
      .set { operation with
        left := operation.left.revise r
        right := operation.right.revise r } := by
  cases operation
  rw [Source.revise]

theorem Select.revise_eq (q : Select) :
    q.revise r =
      { distinct := q.distinct
        projections := q.projections.map (Projection.revise r)
        sources := q.sources.map (Source.revise r)
        joins := q.joins.map (Join.revise r)
        predicate := q.predicate.map (Expr.revise r)
        groupBy := q.groupBy.map (Expr.revise r)
        having := q.having.map (Expr.revise r)
        orderings := q.orderings.map (SortTerm.revise r)
        limit := q.limit.map (Expr.revise r)
        offset := q.offset.map (Expr.revise r) } := by
  cases q
  simp only [Select.revise, Projection.reviseEach_eq, Source.reviseEach_eq, Join.reviseEach_eq,
    Expr.reviseOption_eq, Expr.reviseEach_eq, SortTerm.reviseEach_eq]

/-! ### What a revision keeps -/

section Kept

variable {r : Revision}

theorem Revision.operand_of_ne {op : UnaryOp} {operand revised : Expr}
    (h : op = .negate → ∀ l, operand ≠ .literal l) : r.operand op operand revised = revised := by
  unfold Revision.operand
  split
  · exact absurd rfl (h rfl _)
  · rfl

theorem Expr.revise_eq_literal {e : Expr} {l : Literal} (h : e.revise r = .literal l) :
    ∃ k, e = .literal k := by
  cases e with
  | literal k => exact ⟨k, rfl⟩
  | function call =>
    rw [call.revise_eq] at h
    cases h
  | _ =>
    rw [Expr.revise] at h
    cases h

theorem Expr.ctorIdx_revise (e : Expr) : (e.revise r).ctorIdx = e.ctorIdx := by
  cases e with
  | function call => rw [call.revise_eq]; rfl
  | _ => rfl

theorem Source.ctorIdx_revise (s : Source) : (s.revise r).ctorIdx = s.ctorIdx := by
  cases s with
  | function call => rw [call.revise_eq]; rfl
  | set operation => rw [operation.revise_eq]; rfl
  | _ => rfl

theorem Expr.rank_revise (e : Expr) : (e.revise r).rank = e.rank := by
  cases e with
  | unary op operand type => cases op <;> rfl
  | function call => rw [call.revise_eq]; rfl
  | _ => rfl

theorem Expr.isBinary_revise (op : BinaryOp) (e : Expr) :
    (e.revise r).isBinary op = e.isBinary op := by
  cases e with
  | function call => rw [call.revise_eq]; rfl
  | _ => rfl

theorem Expr.mixesWith_revise (op : BinaryOp) (e : Expr) :
    (e.revise r).mixesWith op = e.mixesWith op := by
  cases e with
  | function call => rw [call.revise_eq]; rfl
  | _ => rfl

theorem Expr.enclosedUnderMinus_revise {e : Expr} (h : ∀ l, e ≠ .literal l) :
    (e.revise r).enclosedUnderMinus = e.enclosedUnderMinus := by
  have sign : (e.revise r).startsWithMinus = e.startsWithMinus := by
    cases e with
    | literal l => exact absurd rfl (h l)
    | unary op operand type => cases op <;> rfl
    | function call => rw [call.revise_eq]; rfl
    | _ => rfl
  rw [enclosedUnderMinus, enclosedUnderMinus, rank_revise, sign]

theorem Expr.enclosedOnLeft_revise (op : BinaryOp) (e : Expr) :
    (e.revise r).enclosedOnLeft op = e.enclosedOnLeft op := by
  simp only [enclosedOnLeft, rank_revise, mixesWith_revise]

theorem Expr.enclosedOnRight_revise (op : BinaryOp) (e : Expr) :
    (e.revise r).enclosedOnRight op = e.enclosedOnRight op := by
  simp only [enclosedOnRight, rank_revise, isBinary_revise, mixesWith_revise]

theorem Expr.enclosedUnderNot_revise (e : Expr) :
    (e.revise r).enclosedUnderNot = e.enclosedUnderNot := by
  rw [enclosedUnderNot, enclosedUnderNot, rank_revise]

theorem Expr.enclosedInTest_revise (e : Expr) : (e.revise r).enclosedInTest = e.enclosedInTest := by
  rw [enclosedInTest, enclosedInTest, rank_revise]

theorem projectionAlias_revise (e : Expr) (aliasName : String) :
    projectionAlias (e.revise r) aliasName = projectionAlias e aliasName := by
  cases e with
  | function call => rw [call.revise_eq]; rfl
  | _ => rfl

theorem Select.isPaged_revise (q : Select) : (q.revise r).isPaged = q.isPaged := by
  rw [q.revise_eq]
  simp [Select.isPaged]

/-- What no revision changes is the same in trees of one shape. -/
theorem eq_of_revise {α β : Type} {revise : α → α} {f : α → β} (kept : ∀ x, f (revise x) = f x)
    {x x' : α} (h : revise x = revise x') : f x = f x' := by
  rw [← kept, h, kept]

/-- A minus stands before a constant in both trees, or the operands are revised like any other
part. -/
theorem Revision.operand_cases {op : UnaryOp} {e e' : Expr}
    (h : r.operand op e (e.revise r) = r.operand op e' (e'.revise r)) :
    (op = .negate ∧ ∃ l l', e = .literal l ∧ e' = .literal l' ∧ r.negated l = r.negated l') ∨
      e.revise r = e'.revise r ∧
        (op = .negate → (∀ l, e ≠ .literal l) ∧ ∀ l, e' ≠ .literal l) := by
  by_cases minus : op = .negate
  · subst minus
    by_cases first : ∃ l, e = .literal l
    · obtain ⟨l, rfl⟩ := first
      by_cases second : ∃ l', e' = .literal l'
      · obtain ⟨l', rfl⟩ := second
        exact .inl ⟨rfl, l, l', rfl, rfl, Expr.literal.inj h⟩
      · have other := not_exists.1 second
        rw [operand_of_ne fun _ => other] at h
        exact absurd (Expr.revise_eq_literal h.symm) second
    · have other := not_exists.1 first
      rw [operand_of_ne fun _ => other] at h
      by_cases second : ∃ l', e' = .literal l'
      · obtain ⟨l', rfl⟩ := second
        exact absurd (Expr.revise_eq_literal h) first
      · have other' := not_exists.1 second
        rw [operand_of_ne fun _ => other'] at h
        exact .inr ⟨h, fun _ => ⟨other, other'⟩⟩
  · rw [operand_of_ne fun eq => absurd eq minus, operand_of_ne fun eq => absurd eq minus] at h
    exact .inr ⟨h, fun eq => absurd eq minus⟩

end Kept

end SelectCompiler
