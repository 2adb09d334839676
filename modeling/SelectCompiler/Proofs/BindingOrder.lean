import SelectCompiler.Proofs.Placeholders
import SelectCompiler.Proofs.Tree.NodeLeaves

/-!
The bindings of one tree in two dialects. Main statement: the two lists have the same bindings, each
as often, and they are equal where the dialects write the limit and the offset of every block in the
same order.
-/

namespace SelectCompiler

/-! ### Blocks that two orders treat alike -/

/-- Both orders put the leaves of the limit and of the offset of a block in the same places. -/
def PagingOrder.AgreesOn (order order' : PagingOrder) (q : Select) : Prop :=
  ∀ f : Expr → List Leaf,
    order.front (q.limit.map f) (q.offset.map f) = order'.front (q.limit.map f) (q.offset.map f) ∧
    order.back (q.limit.map f) (q.offset.map f) = order'.back (q.limit.map f) (q.offset.map f)

namespace Node

/-- The leaves of a node in the order of its text. -/
def leavesIn (order : PagingOrder) : Node → List Leaf
  | expr e => e.leaves order
  | block q => q.leaves order
  | source s => s.leaves order
  | join j => j.leaves order

variable {order order' : PagingOrder}

theorem block_leavesIn_congr {q : Select} (agree : order.AgreesOn order' q)
    (h : ∀ m ∈ (block q).parts, m.leavesIn order = m.leavesIn order') :
    q.leaves order = q.leaves order' := by
  simp only [parts, List.forall_mem_append, List.forall_mem_map, Option.mem_toList, leavesIn] at h
  obtain ⟨⟨⟨⟨⟨⟨⟨⟨projections, sources⟩, joins⟩, predicate⟩, groupBy⟩, having⟩, orderings⟩, limit⟩,
    offset⟩ := h
  have body : q.bodyLeaves order = q.bodyLeaves order' := by
    have shown : ∀ p ∈ q.projections, p.leaves order = p.leaves order' := fun p hp => by
      rw [Projection.leaves, Projection.leaves, projections p hp]
    have option {e? : Option Expr} (h : ∀ e ∈ e?, e.leaves order = e.leaves order') :
        e?.toList.flatMap (Expr.leaves order) = e?.toList.flatMap (Expr.leaves order') :=
      List.flatMap_congr fun e he => h e (Option.mem_toList.1 he)
    rw [Select.bodyLeaves, Select.bodyLeaves, List.flatMap_congr shown, List.flatMap_congr sources,
      List.flatMap_congr joins, option predicate, List.flatMap_congr groupBy, option having,
      List.flatMap_congr orderings]
  rw [q.leaves_eq, q.leaves_eq, body, Option.map_congr limit, Option.map_congr offset,
    (agree (Expr.leaves order')).1, (agree (Expr.leaves order')).2]

/-- The leaves of a node come in the same order where those of its parts do, unless it is a block
that the orders treat differently. -/
theorem leavesIn_congr_of_parts {n : Node} (agree : ∀ q, n = block q → order.AgreesOn order' q)
    (h : ∀ m ∈ n.parts, m.leavesIn order = m.leavesIn order') :
    n.leavesIn order = n.leavesIn order' := by
  have each {es : List Expr} (h : ∀ e ∈ es, e.leaves order = e.leaves order') :
      es.flatMap (Expr.leaves order) = es.flatMap (Expr.leaves order') := List.flatMap_congr h
  cases n with
  | block q => exact block_leavesIn_congr (agree q rfl) h
  | expr e =>
    simp only [leavesIn]
    cases e with
    | column c | literal l | parameter p | fragment text => rfl
    | unary op operand type =>
      simp only [parts, List.forall_mem_singleton, leavesIn] at h
      rw [Expr.leaves, Expr.leaves, h]
    | binary left op right type =>
      simp only [parts, List.forall_mem_cons, leavesIn] at h
      rw [Expr.leaves, Expr.leaves, h.1, h.2.1]
    | function call =>
      simp only [parts, List.forall_mem_map, leavesIn] at h
      rw [call.leaves_eq, call.leaves_eq, each h]
    | subquery q | «exists» q negated =>
      simp only [parts, List.forall_mem_singleton, leavesIn] at h
      rw [Expr.leaves, Expr.leaves, h]
    | inList item values negated =>
      simp only [parts, List.forall_mem_cons, List.forall_mem_map, leavesIn] at h
      simp only [Expr.leaves, Expr.leavesEach_eq]
      rw [h.1, each h.2]
    | inSelect item q negated =>
      simp only [parts, List.forall_mem_cons, leavesIn] at h
      rw [Expr.leaves, Expr.leaves, h.1, h.2.1]
    | like item pattern escape negated =>
      simp only [parts, List.forall_mem_cons, List.forall_mem_map, leavesIn] at h
      simp only [Expr.leaves, Expr.leavesOption_eq]
      rw [h.1, h.2.1, each h.2.2]
    | case operand whens otherwise type =>
      simp only [parts, List.forall_mem_append, List.forall_mem_map, List.forall_mem_flatMap,
        List.forall_mem_cons, leavesIn] at h
      simp only [Expr.leaves, Expr.leavesOption_eq, Expr.leavesWhens_eq]
      rw [each h.1.1, each h.2, List.flatMap_congr fun w hw =>
        congrArg₂ (· ++ ·) (h.1.2 w hw).1 (h.1.2 w hw).2.1]
  | source s =>
    simp only [leavesIn]
    cases s with
    | table name schema aliasName => rfl
    | derived q aliasName =>
      simp only [parts, List.forall_mem_singleton, leavesIn] at h
      rw [Source.leaves, Source.leaves, h]
    | function call =>
      simp only [parts, List.forall_mem_map, leavesIn] at h
      rw [call.leaves_eq, call.leaves_eq, each h]
    | set operation =>
      simp only [parts, List.forall_mem_cons, leavesIn] at h
      rw [operation.leaves_eq, operation.leaves_eq, h.1, h.2.1]
  | join j =>
    simp only [parts, List.forall_mem_cons, List.forall_mem_map, leavesIn] at h
    simp only [leavesIn]
    rw [Join.leaves, Join.leaves, h.1, each h.2]

/-- Orders that agree on every block of a tree give its leaves in the same order. -/
theorem leavesIn_congr (n : Node) (agree : ∀ q, n.Contains (block q) → order.AgreesOn order' q) :
    n.leavesIn order = n.leavesIn order' := by
  refine of_contained (fun n own parts => leavesIn_congr_of_parts own parts) n
    (L := fun k => ∀ q, k = block q → order.AgreesOn order' q) ?_
  rintro k hk q rfl
  exact agree q hk

end Node

/-! ### Dialects that treat blocks alike -/

/-- Two dialects that place the limit and the offset of every block of a tree alike bind the same
values in the same order. -/
theorem Select.bound_congr {d d' : Dialect} {s : Select}
    (agree : ∀ q, (Node.block s).Contains (.block q) → d.pagingOrder.AgreesOn d'.pagingOrder q)
    (o : Options) : s.bound d.pagingOrder o = s.bound d'.pagingOrder o :=
  congrArg (List.filterMap (Leaf.binding? o)) (Node.leavesIn_congr (.block s) agree)

namespace Dialect

theorem oracle_agreesOn (q : Select) : postgres.pagingOrder.AgreesOn oracle.pagingOrder q := by
  intro f
  cases q.limit <;> cases q.offset <;> exact ⟨rfl, rfl⟩

theorem sqlite_agreesOn (q : Select) : mysql.pagingOrder.AgreesOn sqlite.pagingOrder q := by
  intro f
  cases q.limit <;> cases q.offset <;> exact ⟨rfl, rfl⟩

/-- Only a limit without an offset is written before the projections. -/
theorem sqlServer_agreesOn (schema : String) {q : Select} (h : q.limit.isSome → q.offset.isSome) :
    (sqlServer schema).pagingOrder.AgreesOn postgres.pagingOrder q := by
  intro f
  cases hl : q.limit <;> cases hk : q.offset
  case some.none => simp [hl, hk] at h
  all_goals exact ⟨rfl, rfl⟩

example : ¬(sqlServer "dbo").pagingOrder.AgreesOn postgres.pagingOrder
    { limit := some (.fragment "?") } :=
  fun h => absurd (h fun _ => [.fragment "?"]).1 (by decide)

theorem agreesOn_of_unlimited {d d' : Dialect} (hd : d.BuiltIn) (hd' : d'.BuiltIn) {q : Select}
    (h : q.limit = none) : d.pagingOrder.AgreesOn d'.pagingOrder q := by
  intro f
  rw [h]
  cases hd <;> cases hd' <;> cases q.offset <;> exact ⟨rfl, rfl⟩

end Dialect

/-- Every limit in a tree stands next to an offset. -/
def Select.LimitsHaveOffsets (s : Select) : Prop :=
  ∀ q, (Node.block s).Contains (.block q) → q.limit.isSome → q.offset.isSome

/-- No block of a tree has a limit. -/
def Select.IsUnlimited (s : Select) : Prop :=
  ∀ q, (Node.block s).Contains (.block q) → q.limit = none

/-- Two dialects bind the same values, each as often, and those with the same order of limit and
offset bind them at the same positions. -/
theorem Select.compile_parameters_perm {d d' : Dialect} (hd : d.BuiltIn) (hd' : d'.BuiltIn)
    {o : Options} {s : Select} {out out' : Command}
    (h : s.compile d o = .ok out) (h' : s.compile d' o = .ok out') :
    out.parameters.Perm out'.parameters ∧
    (d = .postgres ∧ d' = .oracle → out.parameters = out'.parameters) ∧
    (d = .mysql ∧ d' = .sqlite → out.parameters = out'.parameters) ∧
    (∀ schema, d = .sqlServer schema ∧ d' = .postgres → s.LimitsHaveOffsets →
      out.parameters = out'.parameters) ∧
    (s.IsUnlimited → out.parameters = out'.parameters) := by
  obtain ⟨none, rfl⟩ := compile_ok h
  obtain ⟨none', rfl⟩ := compile_ok h'
  have bindings : (d.command (s.tokens d o)).parameters = s.bound d.pagingOrder o :=
    Select.bindings_tokens hd none
  have bindings' : (d'.command (s.tokens d' o)).parameters = s.bound d'.pagingOrder o :=
    Select.bindings_tokens hd' none'
  have same (agree : ∀ q, (Node.block s).Contains (.block q) →
      d.pagingOrder.AgreesOn d'.pagingOrder q) :
      (d.command (s.tokens d o)).parameters = (d'.command (s.tokens d' o)).parameters := by
    rw [bindings, bindings', Select.bound_congr agree]
  have perm : (s.bound d.pagingOrder o).Perm (s.bound d'.pagingOrder o) :=
    (((perm_step hd).ofSelect s).trans ((perm_step hd').ofSelect s).symm).filterMap _
  refine ⟨bindings ▸ bindings' ▸ perm, ?_, ?_, ?_, ?_⟩
  · rintro ⟨rfl, rfl⟩
    exact same fun q _ => Dialect.oracle_agreesOn q
  · rintro ⟨rfl, rfl⟩
    exact same fun q _ => Dialect.sqlite_agreesOn q
  · rintro schema ⟨rfl, rfl⟩ limits
    exact same fun q hq => Dialect.sqlServer_agreesOn schema (limits q hq)
  · intro unlimited
    exact same fun q hq => Dialect.agreesOn_of_unlimited hd hd' (unlimited q hq)

/-- A page of joined texts taken from another page. -/
def pageOfPage : Select :=
  let name : Expr := .column ⟨"name", none, .text, false⟩
  let bound (name : String) (n : Int64) : Expr := .parameter ⟨name, .int n, .int⟩
  let page : Select :=
    { projections := [⟨name, ""⟩]
      sources := [.table "users" none none]
      limit := some (bound "size" 20)
      offset := some (bound "skip" 40) }
  { projections := [⟨.binary name .concat (.parameter ⟨"mark", .text "!", .text⟩) .text, "shown"⟩]
    sources := [.derived page "page"]
    limit := some (bound "first" 5)
    offset := some (bound "after" 2) }

theorem compile_parameters_perm_pageOfPage : ∃ out out',
    pageOfPage.compile (.sqlServer "dbo") ⟨false⟩ = .ok out ∧
    pageOfPage.compile .postgres ⟨false⟩ = .ok out' ∧
    out.parameters = out'.parameters ∧ out.parameters.length = 5 := by
  have limits : pageOfPage.LimitsHaveOffsets := by
    simp [Select.LimitsHaveOffsets, pageOfPage, Node.forall_blocks_iff (.block _),
      Node.forall_blocks_iff (.source _), Node.forall_blocks_iff (.expr _), Node.parts]
  obtain ⟨-, -, -, same, -⟩ := Select.compile_parameters_perm (s := pageOfPage) (o := ⟨false⟩)
    (.sqlServer "dbo") .postgres rfl rfl
  exact ⟨_, _, rfl, rfl, same "dbo" ⟨rfl, rfl⟩ limits, rfl⟩

end SelectCompiler
