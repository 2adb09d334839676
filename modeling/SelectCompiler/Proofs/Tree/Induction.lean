import SelectCompiler.Tree.Basic

/-!
Induction over trees. Expressions, blocks and sources contain each other, also inside lists and
options; `TreeStep` says once what a property has to do at every kind of node.
-/

namespace SelectCompiler

/-- At every kind of node, the properties hold if they hold of all parts. -/
structure TreeStep (E : Expr → Prop) (Q : Select → Prop) (S : Source → Prop) : Prop where
  column : ∀ c, E (.column c)
  literal : ∀ l, E (.literal l)
  parameter : ∀ p, E (.parameter p)
  unary : ∀ op operand type, E operand → E (.unary op operand type)
  binary : ∀ left op right type, E left → E right → E (.binary left op right type)
  function : ∀ call : FunctionCall, (∀ e ∈ call.arguments, E e) → E (.function call)
  subquery : ∀ q, Q q → E (.subquery q)
  exist : ∀ q negated, Q q → E (.exists q negated)
  inList : ∀ item values negated, E item → (∀ e ∈ values, E e) → E (.inList item values negated)
  inSelect : ∀ item q negated, E item → Q q → E (.inSelect item q negated)
  like : ∀ item pattern escape negated, E item → E pattern → (∀ e ∈ escape, E e) →
    E (.like item pattern escape negated)
  case : ∀ operand whens otherwise type, (∀ e ∈ operand, E e) →
    (∀ w ∈ whens, E w.1 ∧ E w.2) → (∀ e ∈ otherwise, E e) → E (.case operand whens otherwise type)
  fragment : ∀ text, E (.fragment text)
  block : ∀ q : Select, (∀ p ∈ q.projections, E p.expr) → (∀ s ∈ q.sources, S s) →
    (∀ j ∈ q.joins, S j.source ∧ ∀ e ∈ j.predicate, E e) → (∀ e ∈ q.predicate, E e) →
    (∀ e ∈ q.groupBy, E e) → (∀ e ∈ q.having, E e) → (∀ t ∈ q.orderings, E t.expr) →
    (∀ e ∈ q.limit, E e) → (∀ e ∈ q.offset, E e) → Q q
  table : ∀ name schema aliasName, S (.table name schema aliasName)
  derived : ∀ q aliasName, Q q → S (.derived q aliasName)
  tableFunction : ∀ call : TableFunction, (∀ e ∈ call.arguments, E e) → S (.function call)
  set : ∀ operation : SetOperation, Q operation.left → Q operation.right → S (.set operation)

namespace TreeStep

variable {E : Expr → Prop} {Q : Select → Prop} {S : Source → Prop}

mutual

theorem ofExpr (h : TreeStep E Q S) : (e : Expr) → E e
  | .column c => h.column c
  | .literal l => h.literal l
  | .parameter p => h.parameter p
  | .unary op operand type => h.unary op operand type (h.ofExpr operand)
  | .binary left op right type => h.binary left op right type (h.ofExpr left) (h.ofExpr right)
  | .function ⟨name, schema, isBuiltIn, isNiladic, isNullable, propagatesNull, arguments, type⟩ =>
    h.function ⟨name, schema, isBuiltIn, isNiladic, isNullable, propagatesNull, arguments, type⟩
      (h.ofExprs arguments)
  | .subquery q => h.subquery q (h.ofSelect q)
  | .exists q negated => h.exist q negated (h.ofSelect q)
  | .inList item values negated =>
    h.inList item values negated (h.ofExpr item) (h.ofExprs values)
  | .inSelect item q negated => h.inSelect item q negated (h.ofExpr item) (h.ofSelect q)
  | .like item pattern escape negated =>
    h.like item pattern escape negated (h.ofExpr item) (h.ofExpr pattern) (h.ofOption escape)
  | .case operand whens otherwise type =>
    h.case operand whens otherwise type (h.ofOption operand) (h.ofWhens whens)
      (h.ofOption otherwise)
  | .fragment text => h.fragment text

theorem ofOption (h : TreeStep E Q S) : (o : Option Expr) → ∀ e ∈ o, E e
  | none => fun _ he => nomatch he
  | some e => fun _ he => Option.some.inj he ▸ h.ofExpr e

theorem ofExprs (h : TreeStep E Q S) : (es : List Expr) → ∀ e ∈ es, E e
  | [] => fun _ he => nomatch he
  | e :: es => List.forall_mem_cons.2 ⟨h.ofExpr e, h.ofExprs es⟩

theorem ofWhens (h : TreeStep E Q S) : (ws : List (Expr × Expr)) → ∀ w ∈ ws, E w.1 ∧ E w.2
  | [] => fun _ hw => nomatch hw
  | (c, r) :: ws => List.forall_mem_cons.2 ⟨⟨h.ofExpr c, h.ofExpr r⟩, h.ofWhens ws⟩

theorem ofProjections (h : TreeStep E Q S) : (ps : List Projection) → ∀ p ∈ ps, E p.expr
  | [] => fun _ hp => nomatch hp
  | ⟨e, _⟩ :: ps => List.forall_mem_cons.2 ⟨h.ofExpr e, h.ofProjections ps⟩

theorem ofSortTerms (h : TreeStep E Q S) : (ts : List SortTerm) → ∀ t ∈ ts, E t.expr
  | [] => fun _ ht => nomatch ht
  | ⟨e, _⟩ :: ts => List.forall_mem_cons.2 ⟨h.ofExpr e, h.ofSortTerms ts⟩

theorem ofSelect (h : TreeStep E Q S) : (q : Select) → Q q
  | ⟨distinct, projections, sources, joins, predicate, groupBy, having, orderings, limit,
      offset⟩ =>
    h.block ⟨distinct, projections, sources, joins, predicate, groupBy, having, orderings, limit,
        offset⟩
      (h.ofProjections projections) (h.ofSources sources) (h.ofJoins joins) (h.ofOption predicate)
      (h.ofExprs groupBy) (h.ofOption having) (h.ofSortTerms orderings) (h.ofOption limit)
      (h.ofOption offset)

theorem ofSource (h : TreeStep E Q S) : (s : Source) → S s
  | .table name schema aliasName => h.table name schema aliasName
  | .derived q aliasName => h.derived q aliasName (h.ofSelect q)
  | .function ⟨name, schema, isBuiltIn, arguments, aliasName⟩ =>
    h.tableFunction ⟨name, schema, isBuiltIn, arguments, aliasName⟩ (h.ofExprs arguments)
  | .set ⟨operator, distinct, left, right, aliasName⟩ =>
    h.set ⟨operator, distinct, left, right, aliasName⟩ (h.ofSelect left) (h.ofSelect right)

theorem ofSources (h : TreeStep E Q S) : (ss : List Source) → ∀ s ∈ ss, S s
  | [] => fun _ hs => nomatch hs
  | s :: ss => List.forall_mem_cons.2 ⟨h.ofSource s, h.ofSources ss⟩

theorem ofJoins (h : TreeStep E Q S) :
    (js : List Join) → ∀ j ∈ js, S j.source ∧ ∀ e ∈ j.predicate, E e
  | [] => fun _ hj => nomatch hj
  | ⟨_, source, predicate⟩ :: js =>
    List.forall_mem_cons.2 ⟨⟨h.ofSource source, h.ofOption predicate⟩, h.ofJoins js⟩

end

end TreeStep

end SelectCompiler
