import Mathlib.Data.List.Basic
import SelectCompiler.Proofs.Tree.Induction

/-!
The nodes of a tree at every depth. What a function gathers node by node is gathered over all nodes
that a tree contains.
-/

namespace SelectCompiler

inductive Node where
  | expr (e : Expr)
  | block (q : Select)
  | source (s : Source)
  | join (j : Join)

namespace Node

/-- The nodes directly below a node, in the order of its fields. -/
def parts : Node → List Node
  | expr (.column _) | expr (.literal _) | expr (.parameter _) | expr (.fragment _) => []
  | expr (.unary _ operand _) => [expr operand]
  | expr (.binary left _ right _) => [expr left, expr right]
  | expr (.function call) => call.arguments.map expr
  | expr (.subquery q) | expr (.exists q _) => [block q]
  | expr (.inList item values _) => expr item :: values.map expr
  | expr (.inSelect item q _) => [expr item, block q]
  | expr (.like item pattern escape _) => expr item :: expr pattern :: escape.toList.map expr
  | expr (.case operand whens otherwise _) =>
    operand.toList.map expr ++ (whens.flatMap fun w => [expr w.1, expr w.2]) ++
      otherwise.toList.map expr
  | block q =>
    (q.projections.map fun p => expr p.expr) ++ q.sources.map source ++ q.joins.map join ++
      q.predicate.toList.map expr ++ q.groupBy.map expr ++ q.having.toList.map expr ++
      (q.orderings.map fun t => expr t.expr) ++ q.limit.toList.map expr ++
      q.offset.toList.map expr
  | source (.table _ _ _) => []
  | source (.derived q _) => [block q]
  | source (.function call) => call.arguments.map expr
  | source (.set operation) => [block operation.left, block operation.right]
  | join j => source j.source :: j.predicate.toList.map expr

theorem mem_case_parts {operand otherwise : Option Expr} {whens : List (Expr × Expr)}
    {type : SqlType} {m : Expr} :
    expr m ∈ (expr (.case operand whens otherwise type)).parts ↔
      m ∈ operand ∨ (∃ w ∈ whens, m = w.1 ∨ m = w.2) ∨ m ∈ otherwise := by
  simp [parts]

/-- A node contains itself and whatever its parts contain. -/
inductive Contains : Node → Node → Prop where
  | self (n : Node) : Contains n n
  | part {n m k : Node} (h : m ∈ n.parts) (hk : Contains m k) : Contains n k

theorem Contains.trans {n m k : Node} (h : n.Contains m) (h' : m.Contains k) : n.Contains k := by
  induction h with
  | self => exact h'
  | part part _ ih => exact .part part (ih h')

theorem contains_iff {n k : Node} :
    n.Contains k ↔ k = n ∨ ∃ m ∈ n.parts, m.Contains k := by
  constructor
  · intro h
    cases h with
    | self => exact .inl rfl
    | part h hk => exact .inr ⟨_, h, hk⟩
  · rintro (rfl | ⟨m, h, hk⟩)
    · exact .self _
    · exact .part h hk

theorem induction {P : Node → Prop} (step : ∀ n, (∀ m ∈ n.parts, P m) → P n) (n : Node) : P n := by
  have tree : TreeStep (fun e => P (expr e)) (fun q => P (block q)) (fun s => P (source s)) :=
    { column := fun c => step _ (by simp [parts])
      literal := fun l => step _ (by simp [parts])
      parameter := fun p => step _ (by simp [parts])
      unary := fun op operand type ih => step _ (by simpa [parts] using ih)
      binary := fun left op right type ihl ihr => step _ (by simp [parts, ihl, ihr])
      function := fun call ih => step _ (by simpa [parts] using ih)
      subquery := fun q ih => step _ (by simpa [parts] using ih)
      exist := fun q negated ih => step _ (by simpa [parts] using ih)
      inList := fun item values negated ihi ihv => step _ (by simpa [parts, ihi] using ihv)
      inSelect := fun item q negated ihi ihq => step _ (by simp [parts, ihi, ihq])
      like := fun item pattern escape negated ihi ihp ihe =>
        step _ (by simpa [parts, ihi, ihp] using ihe)
      case := fun operand whens otherwise type iho ihw ihe => step _ (by
        simp only [parts, List.forall_mem_append, List.forall_mem_map, List.forall_mem_flatMap,
          List.forall_mem_cons, List.not_mem_nil, IsEmpty.forall_iff, implies_true, and_true,
          Option.mem_toList]
        exact ⟨⟨iho, ihw⟩, ihe⟩)
      fragment := fun text => step _ (by simp [parts])
      block := fun q ihp ihs ihj ihw ihg ihh iho ihl ihk => step _ (by
        have joins : ∀ j ∈ q.joins, P (join j) := fun j hj => step _ (by
          obtain ⟨source, predicate⟩ := ihj j hj
          simpa [parts, source] using predicate)
        simp only [parts, List.forall_mem_append, List.forall_mem_map, Option.mem_toList]
        exact ⟨⟨⟨⟨⟨⟨⟨⟨ihp, ihs⟩, joins⟩, ihw⟩, ihg⟩, ihh⟩, iho⟩, ihl⟩, ihk⟩)
      table := fun name schema aliasName => step _ (by simp [parts])
      derived := fun q aliasName ih => step _ (by simpa [parts] using ih)
      tableFunction := fun call ih => step _ (by simpa [parts] using ih)
      set := fun operation ihl ihr => step _ (by simp [parts, ihl, ihr]) }
  cases n with
  | expr e => exact tree.ofExpr e
  | block q => exact tree.ofSelect q
  | source s => exact tree.ofSource s
  | join j =>
    refine step _ ?_
    rw [parts, List.forall_mem_cons, List.forall_mem_map]
    exact ⟨tree.ofSource j.source, fun e _ => tree.ofExpr e⟩

/-- What a node has by itself and on account of its parts, it has where all nodes that it contains
have the former. -/
theorem of_contained {L Q : Node → Prop} (step : ∀ n, L n → (∀ m ∈ n.parts, Q m) → Q n) (n : Node)
    (h : ∀ k, n.Contains k → L k) : Q n :=
  induction (P := fun n => (∀ k, n.Contains k → L k) → Q n)
    (fun n ih h => step n (h n (.self n)) fun m hm => ih m hm fun _ hk => h _ (.part hm hk)) n h

/-- The blocks in a node are itself, if it is one, and those in its parts. -/
theorem forall_blocks_iff {P : Select → Prop} (n : Node) :
    (∀ q, n.Contains (block q) → P q) ↔
      (∀ q, n = block q → P q) ∧ ∀ m ∈ n.parts, ∀ q, m.Contains (block q) → P q := by
  constructor
  · exact fun h => ⟨fun q hq => h q (hq ▸ .self _), fun m hm q hq => h q (.part hm hq)⟩
  · rintro ⟨own, parts⟩ q (_ | ⟨hm, hq⟩)
    · exact own q rfl
    · exact parts _ hm q hq

/-- What holds of a node by itself or of one of its parts, holds by itself of a node that it
contains. -/
theorem exists_contains_iff {P own : Node → Prop}
    (step : ∀ n, P n ↔ own n ∨ ∃ m ∈ n.parts, P m) (n : Node) :
    P n ↔ ∃ k, n.Contains k ∧ own k := by
  refine induction (P := fun n => P n ↔ ∃ k, n.Contains k ∧ own k) (fun n ih => ?_) n
  rw [step]
  constructor
  · rintro (h | ⟨m, hm, h⟩)
    · exact ⟨n, .self n, h⟩
    · obtain ⟨k, hk, h⟩ := (ih m hm).1 h
      exact ⟨k, .part hm hk, h⟩
  · rintro ⟨k, hk, h⟩
    rcases contains_iff.1 hk with rfl | ⟨m, hm, hk⟩
    · exact .inl h
    · exact .inr ⟨m, hm, (ih m hm).2 ⟨k, hk, h⟩⟩

end Node

/-! ### Expressions within expressions -/

namespace Expr

/-- An expression in another one, at any depth; what stands in blocks does not count. -/
inductive Within : Expr → Expr → Prop where
  | self (e : Expr) : Within e e
  | part {e m k : Expr} (h : .expr m ∈ (Node.expr e).parts) (hk : Within k m) : Within k e

theorem Within.trans {k m e : Expr} (h : k.Within m) (h' : m.Within e) : k.Within e := by
  induction h' with
  | self => exact h
  | part hm _ ih => exact .part hm (ih h)

theorem part_induction {P : Expr → Prop}
    (step : ∀ e, (∀ m, .expr m ∈ (Node.expr e).parts → P m) → P e) (e : Expr) : P e := by
  refine Node.induction (P := fun n => ∀ e, n = .expr e → P e) (fun n ih e eq => ?_) (.expr e) e rfl
  subst eq
  exact step e fun m hm => ih (.expr m) hm m rfl

theorem forall_within_iff {P : Expr → Prop} {e : Expr} :
    (∀ k, k.Within e → P k) ↔
      P e ∧ ∀ m, .expr m ∈ (Node.expr e).parts → ∀ k, k.Within m → P k := by
  constructor
  · exact fun h => ⟨h e (.self e), fun m hm k hk => h k (.part hm hk)⟩
  · rintro ⟨own, parts⟩ k (_ | ⟨hm, hk⟩)
    · exact own
    · exact parts _ hm k hk

end Expr

end SelectCompiler
