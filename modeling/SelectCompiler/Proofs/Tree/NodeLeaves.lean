import SelectCompiler.Proofs.Tree.LeafOrder
import SelectCompiler.Proofs.Tree.Nodes

/-!
The leaves of a tree are those of its nodes.
-/

namespace SelectCompiler

namespace Node

/-- The leaves of a node in the order of the fields. -/
def leaves : Node → List Leaf
  | expr e => e.leaves .ofFields
  | block q => q.leaves .ofFields
  | source s => s.leaves .ofFields
  | join j => j.leaves .ofFields

/-- The leaves that a node has apart from its parts. -/
def ownLeaves : Node → List Leaf
  | expr (.column c) => [.column c]
  | expr (.literal l) => [.literal l]
  | expr (.parameter p) => [.parameter p]
  | expr (.unary op _ _) => op.leaves
  | expr (.function call) => [.function call.schema call.name call.isBuiltIn]
  | expr (.fragment text) => [.fragment text]
  | expr _ => []
  | block q => q.projections.flatMap fun p => (shownAlias p.expr p.aliasName).toList.map .aliasName
  | source (.table name schema aliasName) =>
    .table schema name :: (givenName aliasName).toList.map .aliasName
  | source (.derived _ aliasName) => [.aliasName aliasName]
  | source (.function call) =>
    [.function call.schema call.name call.isBuiltIn, .aliasName call.aliasName]
  | source (.set operation) => [.aliasName operation.aliasName]
  | join _ => []

theorem block_leaves (q : Select) :
    (q.leaves .ofFields).Perm ((block q).ownLeaves ++ (block q).parts.flatMap leaves) := by
  rw [List.perm_iff_count]
  intro l
  have fields : q.leaves .ofFields = q.bodyLeaves .ofFields ++
      ((q.limit.map (Expr.leaves .ofFields)).getD [] ++
        (q.offset.map (Expr.leaves .ofFields)).getD []) := by
    rw [q.leaves_eq]
    rfl
  have projections : (q.projections.flatMap (Projection.leaves .ofFields)).count l =
      (q.projections.flatMap fun p => p.expr.leaves .ofFields).count l +
        (q.projections.flatMap fun p =>
          (shownAlias p.expr p.aliasName).toList.map Leaf.aliasName).count l := by
    rw [← List.count_append, (List.flatMap_append_perm ..).count_eq l]
    rfl
  have exprs : (fun e => leaves (expr e)) = Expr.leaves .ofFields := rfl
  have sources : (fun s => leaves (source s)) = Source.leaves .ofFields := rfl
  have joins : (fun j => leaves (join j)) = Join.leaves .ofFields := rfl
  simp only [fields, Select.bodyLeaves, ownLeaves, parts, List.flatMap_append, List.flatMap_map,
    exprs, sources, joins, ← flatMap_toList, List.count_append, projections]
  simp only [leaves]
  omega

theorem leaves_perm (n : Node) : n.leaves.Perm (n.ownLeaves ++ n.parts.flatMap leaves) := by
  cases n with
  | expr e =>
    cases e with
    | unary op operand type =>
      simpa [leaves, Expr.leaves, ownLeaves, parts] using List.perm_append_comm
    | function call => simp [leaves, call.leaves_eq, ownLeaves, parts, List.flatMap_map]
    | case operand whens otherwise type =>
      simp [leaves, Expr.leaves, ownLeaves, parts, List.flatMap_map, List.flatMap_assoc]
    | _ => simp [leaves, Expr.leaves, ownLeaves, parts, List.flatMap_map]
  | block q => exact block_leaves q
  | source s =>
    cases s with
    | table name schema aliasName => simp [leaves, Source.leaves, ownLeaves, parts]
    | derived q aliasName =>
      simp [leaves, Source.leaves, ownLeaves, parts]
    | function call => simp [leaves, call.leaves_eq, ownLeaves, parts, List.flatMap_map]
    | set operation =>
      simp only [leaves, operation.leaves_eq, ownLeaves, parts, List.flatMap_cons,
        List.flatMap_nil, List.append_nil]
      exact List.perm_append_comm
  | join j => simp [leaves, Join.leaves, ownLeaves, parts, List.flatMap_map]

/-- A leaf of a tree is one of a node in it. -/
theorem mem_leaves_iff (n : Node) (l : Leaf) :
    l ∈ n.leaves ↔ ∃ k, n.Contains k ∧ l ∈ k.ownLeaves :=
  exists_contains_iff (P := fun n => l ∈ n.leaves)
    (fun n => by simp [(leaves_perm n).mem_iff]) n

end Node

end SelectCompiler
