import SelectCompiler.Proofs.Tree.Revision

/-!
The nodes of a revised tree. Two trees that a revision makes equal contain the same nodes, up to that
revision.
-/

namespace SelectCompiler

/-- Constants behind a minus sign are revised like all others. -/
def Revision.IgnoresSigns (r : Revision) : Prop := r.negated = r.literal

namespace Node

def revise (r : Revision) : Node → Node
  | expr e => expr (e.revise r)
  | block q => block (q.revise r)
  | source s => source (s.revise r)
  | join j => join (j.revise r)

variable {r : Revision}

theorem parts_revise (plain : r.IgnoresSigns) (n : Node) :
    (n.revise r).parts = n.parts.map (revise r) := by
  cases n with
  | expr e =>
    cases e with
    | unary op operand type =>
      have revised : r.operand op operand (operand.revise r) = operand.revise r := by
        unfold Revision.operand
        split
        · rw [plain]
          rfl
        · rfl
      simp [revise, Expr.revise, parts, revised]
    | function call =>
      rw [revise, call.revise_eq]
      simp [parts, revise]
    | like item pattern escape negated => simp [revise, Expr.revise, parts, Option.toList_map]
    | case operand whens otherwise type =>
      simp [revise, Expr.revise, parts, Option.toList_map, List.map_flatMap, List.flatMap_map]
      rfl
    | _ => simp [revise, Expr.revise, parts]
  | block q =>
    rw [revise, q.revise_eq]
    simp [parts, Option.toList_map]
    rfl
  | source s =>
    cases s with
    | function call =>
      rw [revise, call.revise_eq]
      simp [parts, revise]
    | set operation =>
      rw [revise, operation.revise_eq]
      simp [parts, revise]
    | _ => simp [revise, Source.revise, parts]
  | join j => simp [revise, Join.revise, parts, Option.toList_map]

/-- What one of two equally revised trees contains, the other one contains up to the revision. -/
theorem contains_of_revise (plain : r.IgnoresSigns) {n n' k' : Node}
    (h : n.revise r = n'.revise r) (contained : n'.Contains k') :
    ∃ k, n.Contains k ∧ k.revise r = k'.revise r := by
  induction contained generalizing n with
  | self n' => exact ⟨n, .self n, h⟩
  | @part n' m' k' part _ ih =>
    -- The parts of both nodes are equal up to the revision, so one of them mirrors the step.
    have revised : m'.revise r ∈ n.parts.map (revise r) := by
      rw [← parts_revise plain, h, parts_revise plain]
      exact List.mem_map_of_mem part
    obtain ⟨m, mem, equal⟩ := List.mem_map.1 revised
    obtain ⟨k, inner, equal⟩ := ih equal
    exact ⟨k, .part mem inner, equal⟩

end Node

end SelectCompiler
