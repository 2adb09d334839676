import SelectCompiler.Proofs.Tree.LeafOrder
import SelectCompiler.Proofs.Tree.Nodes

/-!
The faults of a tree are those of its nodes: each is what one node, its parts aside, has wrong.
-/

namespace SelectCompiler

namespace Node

variable (d : Dialect) (o : Options)

def faults : Node → List Fault
  | expr e => e.faults d o
  | block q => q.faults d o
  | source s => s.faults d o
  | join j => j.faults d o

/-- What is wrong with a node, its parts aside. -/
def ownFaults : Node → List Fault
  | expr (.literal l) => literalFaults o l
  | expr (.function call) =>
    callFaults call.name call.schema call.isBuiltIn call.isNiladic call.arguments.length
      call.propagatesNull.length
  | expr (.inList _ values _) => if values.isEmpty then [.emptyValueList] else []
  | expr (.case _ whens _ _) => if whens.isEmpty then [.emptyCase] else []
  | expr _ => []
  | block q =>
    scopeFaults q.allSources ++ d.leadingFaults q.limit q.offset ++
      (if q.sources.isEmpty && !q.joins.isEmpty then [.joinWithoutSource] else []) ++
      d.trailingFaults q.limit q.offset
  | source (.table _ _ _) => []
  | source (.derived _ aliasName) => aliasFaults .derivedTable aliasName
  | source (.function call) =>
    aliasFaults .tableFunction call.aliasName ++
      (if call.isBuiltIn && (givenName call.schema).isSome then
        [.qualifiedBuiltIn true call.name] else [])
  | source (.set operation) =>
    aliasFaults .setOperation operation.aliasName ++
      (if d.supports operation.operator operation.distinct then []
        else [.setOperation operation.operator operation.distinct d.name])
  | join j => joinFaults d j.kind j.predicate.isSome

end Node

namespace Node

variable {d : Dialect} {o : Options}

theorem block_faults (hd : d.BuiltIn) (q : Select) :
    (q.faults d o).Perm
      ((block q).ownFaults d o ++ (block q).parts.flatMap (Node.faults d o)) := by
  rw [List.perm_iff_count]
  intro f
  have paging := (Dialect.parts_perm hd (q.limit.map (Expr.faults d o))
    (q.offset.map (Expr.faults d o))).count_eq f
  have exprs : (fun e => Node.faults d o (expr e)) = Expr.faults d o := rfl
  have sources : (fun s => Node.faults d o (source s)) = Source.faults d o := rfl
  have joins : (fun j => Node.faults d o (join j)) = Join.faults d o := rfl
  simp only [Select.faults_eq, ownFaults, parts, List.flatMap_append, List.flatMap_map, exprs,
    sources, joins, flatMap_toList, List.count_append] at paging ⊢
  simp only [faults]
  omega

theorem faults_perm (hd : d.BuiltIn) (n : Node) :
    (n.faults d o).Perm (n.ownFaults d o ++ n.parts.flatMap (Node.faults d o)) := by
  cases n with
  | expr e =>
    cases e with
    | function call => simp [faults, call.faults_eq, ownFaults, parts, List.flatMap_map]
    | inList item values negated =>
      simp only [faults, Expr.faults, Expr.faultsEach_eq, ownFaults, parts, List.flatMap_cons,
        List.flatMap_map, ← List.append_assoc]
      exact List.perm_append_comm.append_right _
    | like item pattern escape negated =>
      simp [faults, Expr.like_faults, ownFaults, parts, List.flatMap_map]
    | case operand whens otherwise type =>
      simp [faults, Expr.case_faults, ownFaults, parts, List.flatMap_map, List.flatMap_assoc]
    | _ => simp [faults, Expr.faults, ownFaults, parts]
  | block q => exact block_faults hd q
  | source s =>
    cases s with
    | function call => simp [faults, call.faults_eq, ownFaults, parts, List.flatMap_map]
    | set operation => simp [faults, operation.faults_eq, ownFaults, parts]
    | _ => simp [faults, Source.faults, ownFaults, parts]
  | join j => simp [faults, Join.faults, ownFaults, parts, List.flatMap_map]

/-- A fault of a tree is what a node in it has wrong. -/
theorem mem_faults_iff (hd : d.BuiltIn) (n : Node) (f : Fault) :
    f ∈ n.faults d o ↔ ∃ k, n.Contains k ∧ f ∈ k.ownFaults d o :=
  exists_contains_iff (P := fun n => f ∈ n.faults d o)
    (fun n => by simp [(faults_perm hd n).mem_iff]) n

theorem faults_eq_nil_iff (hd : d.BuiltIn) (n : Node) :
    n.faults d o = [] ↔ ∀ k, n.Contains k → k.ownFaults d o = [] := by
  simp only [List.eq_nil_iff_forall_not_mem, mem_faults_iff hd, not_exists, not_and]
  exact ⟨fun h k hk f => h f k hk, fun h f k hk => h k hk f⟩

end Node

end SelectCompiler
