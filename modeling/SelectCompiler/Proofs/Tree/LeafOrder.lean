import Mathlib.Data.List.Perm.Basic
import SelectCompiler.Proofs.Dialects
import SelectCompiler.Proofs.Tree.Induction
import SelectCompiler.Proofs.Tree.Leaves

/-!
The order of a dialect only moves the limit and the offset of a block: the leaves of a tree in the
order of its text are those in the order of its fields, every one once.
-/

namespace SelectCompiler

theorem Dialect.parts_perm {α : Type} {d : Dialect} (hd : d.BuiltIn)
    (limit offset : Option (List α)) :
    (d.leadingParts limit offset ++ d.trailingParts limit offset).Perm
      (limit.getD [] ++ offset.getD []) := by
  cases hd <;> cases limit <;> cases offset <;>
    simp [leadingParts, trailingParts, pagingPlan, PagingForm.inOrder, postgres, mysql, sqlite,
      sqlServer, oracle, List.perm_append_comm]

theorem option_perm {order order' : PagingOrder} {e? : Option Expr}
    (h : ∀ e ∈ e?, (e.leaves order).Perm (e.leaves order')) :
    (e?.toList.flatMap (Expr.leaves order)).Perm (e?.toList.flatMap (Expr.leaves order')) :=
  .flatMap_left _ fun e he => h e (Option.mem_toList.1 he)

theorem perm_around {α : Type} {front body back body' ends : List α}
    (h : (front ++ back).Perm ends) (hb : body.Perm body') :
    (front ++ body ++ back).Perm (body' ++ ends) :=
  calc (front ++ body ++ back).Perm (body ++ front ++ back) := List.perm_append_comm.append_right _
    _ = body ++ (front ++ back) := List.append_assoc ..
    List.Perm _ (body' ++ ends) := hb.append h

/-- The order of a dialect moves leaves only. -/
theorem perm_step {d : Dialect} (hd : d.BuiltIn) :
    TreeStep (fun e => (e.leaves d.pagingOrder).Perm (e.leaves .ofFields))
      (fun q => (q.leaves d.pagingOrder).Perm (q.leaves .ofFields))
      (fun s => (s.leaves d.pagingOrder).Perm (s.leaves .ofFields)) where
  column c := .refl _
  literal l := .refl _
  parameter p := .refl _
  unary op operand type ih := ih.append_right _
  binary left op right type ihl ihr := ihl.append ihr
  function call ih := by
    rw [call.leaves_eq, call.leaves_eq]
    exact (List.Perm.flatMap_left _ ih).cons _
  subquery q ih := ih
  exist q negated ih := ih
  inList item values negated ihi ihv := by
    simp only [Expr.leaves, Expr.leavesEach_eq]
    exact ihi.append (.flatMap_left _ ihv)
  inSelect item q negated ihi ihq := ihi.append ihq
  like item pattern escape negated ihi ihp ihe := by
    simp only [Expr.leaves, Expr.leavesOption_eq]
    exact (ihi.append ihp).append (option_perm ihe)
  case operand whens otherwise type iho ihw ihe := by
    simp only [Expr.leaves, Expr.leavesOption_eq, Expr.leavesWhens_eq]
    exact ((option_perm iho).append
      (.flatMap_left _ fun w hw => (ihw w hw).1.append (ihw w hw).2)).append (option_perm ihe)
  fragment text := .refl _
  block q ihp ihs ihj ihw ihg ihh iho ihl ihk := by
    have body : (q.bodyLeaves d.pagingOrder).Perm (q.bodyLeaves .ofFields) := by
      have projections : ∀ p ∈ q.projections, (p.leaves d.pagingOrder).Perm (p.leaves .ofFields) :=
        fun p hp => (ihp p hp).append_right _
      have joins : ∀ j ∈ q.joins, (j.leaves d.pagingOrder).Perm (j.leaves .ofFields) :=
        fun j hj => (ihj j hj).1.append (option_perm (ihj j hj).2)
      exact ((((((List.Perm.flatMap_left _ projections).append (.flatMap_left _ ihs)).append
        (.flatMap_left _ joins)).append (option_perm ihw)).append (.flatMap_left _ ihg)).append
        (option_perm ihh)).append (.flatMap_left _ iho)
    have parts : ((q.limit.map (Expr.leaves d.pagingOrder)).getD [] ++
        (q.offset.map (Expr.leaves d.pagingOrder)).getD []).Perm
        ((q.limit.map (Expr.leaves .ofFields)).getD [] ++
          (q.offset.map (Expr.leaves .ofFields)).getD []) := by
      simp only [← flatMap_toList]
      exact (option_perm ihl).append (option_perm ihk)
    rw [q.leaves_eq, q.leaves_eq]
    exact perm_around ((Dialect.parts_perm hd _ _).trans parts) body
  table name schema aliasName := .refl _
  derived q aliasName ih := ih.append_right _
  tableFunction call ih := by
    rw [call.leaves_eq, call.leaves_eq]
    exact ((List.Perm.flatMap_left _ ih).cons _).append_right _
  set operation ihl ihr := by
    rw [operation.leaves_eq, operation.leaves_eq]
    exact (ihl.append ihr).append_right _

theorem Select.mem_leaves {d : Dialect} (hd : d.BuiltIn) {s : Select} {l : Leaf} :
    l ∈ s.leaves d.pagingOrder ↔ l ∈ s.leaves .ofFields :=
  ((perm_step hd).ofSelect s).mem_iff

end SelectCompiler
