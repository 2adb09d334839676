import Mathlib.Data.List.Basic
import SelectCompiler.Proofs.Tokens.Contents
import SelectCompiler.Proofs.Tree.Induction
import SelectCompiler.Proofs.Tree.LeafOrder

/-!
What each leaf contributes to a text. Main statement: a tree without faults is written with the
contents of its leaves, each once and in their order.
-/

namespace SelectCompiler

open Token (contents)

/-- A name behind its owner, if it has one. -/
def ownedName (owner : Option String) (name : Token) : List Token :=
  owner.toList.map .name ++ contents [name]

def Leaf.contents (d : Dialect) (o : Options) : Leaf → List Token
  | .column c => ownedName (givenName c.table) (.name c.name)
  | .literal l => Token.contents [d.literalToken o l]
  | .parameter p => [.placeholder ⟨some p.name, p.value, p.type⟩]
  | .target type => Token.contents [d.typeToken type]
  | .function schema name isBuiltIn =>
    ownedName (d.schemaOf isBuiltIn schema) (Dialect.functionToken isBuiltIn name)
  | .table schema name => ownedName (givenName schema) (.name name)
  | .aliasName name => [.name name]
  | .fragment text => [.verbatim text]

/-- What a leaf writes without quotes as it stands in the tree. -/
def Leaf.rawText? : Leaf → Option String
  | .function _ name true => some name
  | .target (.custom name) => some name
  | .fragment text => some text
  | _ => none

theorem Leaf.forall_rawText? {P : String → Prop} {l : Leaf}
    (function : ∀ schema name, l = .function schema name true → P name)
    (target : ∀ name, l = .target (.custom name) → P name)
    (fragment : ∀ text, l = .fragment text → P text) : ∀ text ∈ l.rawText?, P text := by
  intro text mem
  cases l with
  | function schema name isBuiltIn =>
    cases isBuiltIn <;> cases mem
    exact function _ _ rfl
  | target type =>
    cases type <;> cases mem
    exact target _ rfl
  | fragment text =>
    cases mem
    exact fragment _ rfl
  | _ => cases mem

theorem Leaf.mem_rawText? {d : Dialect} {o : Options} {text : String} {l : Leaf}
    (h : Token.verbatim text ∈ l.contents d o) : text ∈ l.rawText? := by
  have owned {owner : Option String} {t : Token} (h : Token.verbatim text ∈ ownedName owner t) :
      t = .verbatim text := by
    rcases List.mem_append.1 h with h | h
    · obtain ⟨n, -, h⟩ := List.mem_map.1 h
      cases h
    · exact (List.mem_singleton.1 (List.mem_filter.1 h).1).symm
  cases l with
  | column c => cases owned h
  | literal l =>
    have literal := List.mem_singleton.1 (List.mem_filter.1 h).1
    unfold Dialect.literalToken at literal
    split at literal <;> cases literal
  | parameter p => cases List.mem_singleton.1 h
  | target type =>
    have target := List.mem_singleton.1 (List.mem_filter.1 h).1
    cases type <;> cases target
    rfl
  | function schema name isBuiltIn =>
    cases isBuiltIn <;> cases owned h
    rfl
  | table schema name => cases owned h
  | aliasName name => cases List.mem_singleton.1 h
  | fragment name =>
    obtain rfl := Token.verbatim.inj (List.mem_singleton.1 h)
    rfl

/-- What holds of the raw texts of leaves holds of those that are written. -/
theorem raw_of_leaves {d : Dialect} {o : Options} {ts : List Token} {leaves : List Leaf}
    (contents : Token.contents ts = leaves.flatMap (Leaf.contents d o)) {P : String → Prop}
    (h : ∀ l ∈ leaves, ∀ text ∈ l.rawText?, P text) {text : String}
    (mem : Token.verbatim text ∈ ts) : P text := by
  have written : Token.verbatim text ∈ Token.contents ts := List.mem_filter.2 ⟨mem, rfl⟩
  rw [contents] at written
  obtain ⟨l, hl, raw⟩ := List.mem_flatMap.1 written
  exact h l hl text (Leaf.mem_rawText? raw)

theorem arguments_of_niladic {call : FunctionCall}
    (h : callFaults call.name call.schema call.isBuiltIn call.isNiladic call.arguments.length
      call.propagatesNull.length = []) (niladic : call.isNiladic = true) : call.arguments = [] := by
  simp only [callFaults, List.append_eq_nil_iff] at h
  obtain ⟨⟨-, h⟩, -⟩ := h
  simpa [niladic] using h

theorem projectionAlias_eq (e : Expr) (aliasName : String) :
    projectionAlias e aliasName =
      (shownAlias e aliasName).toList.flatMap fun a => Token.clause ["AS"] ++ [Token.name a] := by
  cases e <;> simp only [projectionAlias, shownAlias, Expr.isColumnNamed, Bool.or_false] <;>
    split <;> simp_all

namespace Dialect

variable {d : Dialect}

theorem leadingParts_flatMap {α β : Type} (g : α → List β) (limit offset : Option (List α)) :
    d.leadingParts (limit.map (List.flatMap g)) (offset.map (List.flatMap g)) =
      (d.leadingParts limit offset).flatMap g := by
  cases limit <;> cases offset <;> simp only [leadingParts, pagingPlan, Option.map] <;>
    cases d.limitPlace <;> rfl

theorem trailingParts_flatMap {α β : Type} (g : α → List β) (limit offset : Option (List α)) :
    d.trailingParts (limit.map (List.flatMap g)) (offset.map (List.flatMap g)) =
      (d.trailingParts limit offset).flatMap g := by
  cases limit <;> cases offset <;> simp only [trailingParts, pagingPlan, Option.map] <;>
    cases d.limitPlace <;> cases d.paging <;> simp [PagingForm.inOrder]

/-- Limit and offset have no parts outside the two places. -/
theorem parts_eq_nil {α : Type} (hd : d.BuiltIn) {limit offset : Option (List α)}
    (front : d.leadingParts limit offset = []) (back : d.trailingParts limit offset = []) :
    (∀ l ∈ limit, l = []) ∧ ∀ k ∈ offset, k = [] := by
  cases hd <;> cases limit <;> cases offset <;>
    simp_all [leadingParts, trailingParts, pagingPlan, PagingForm.inOrder, postgres, mysql,
      sqlite, sqlServer, oracle]

end Dialect

/-- Members that are written like their leaves, one by one. -/
theorem flatMap_contents {α : Type} {d : Dialect} {o : Options} {tokens : α → List Token}
    {faults : α → List Fault} {leaves : α → List Leaf} {xs : List α}
    (h : ∀ x ∈ xs, faults x = [] →
      contents (tokens x) = (leaves x).flatMap (Leaf.contents d o))
    (none : ∀ x ∈ xs, faults x = []) :
    (xs.flatMap fun x => contents (tokens x)) =
      (xs.flatMap leaves).flatMap (Leaf.contents d o) := by
  rw [List.flatMap_assoc]
  exact List.flatMap_congr fun x hx => h x hx (none x hx)

theorem option_contents {d : Dialect} {o : Options} {order : PagingOrder} {e? : Option Expr}
    (h : ∀ e ∈ e?, e.faults d o = [] →
      contents (e.tokens d o) = (e.leaves order).flatMap (Leaf.contents d o))
    (none : ∀ fs ∈ e?.map (Expr.faults d o), fs = []) :
    (e?.map (Expr.tokens d o)).map contents =
      (e?.map (Expr.leaves order)).map (List.flatMap (Leaf.contents d o)) := by
  cases e? with
  | none => rfl
  | some e => exact congrArg some (h e rfl (none _ rfl))

/-- A node without faults is written with the contents of its leaves. -/
theorem contents_step {d : Dialect} (hd : d.BuiltIn) (o : Options) :
    TreeStep
      (fun e => e.faults d o = [] →
        contents (e.tokens d o) = (e.leaves d.pagingOrder).flatMap (Leaf.contents d o))
      (fun q => q.faults d o = [] →
        contents (q.tokens d o) = (q.leaves d.pagingOrder).flatMap (Leaf.contents d o))
      (fun s => s.faults d o = [] →
        contents (s.tokens d o) = (s.leaves d.pagingOrder).flatMap (Leaf.contents d o)) where
  column c _ := by simp [Expr.tokens, Expr.leaves, Leaf.contents, ownedName]
  literal l _ := by simp [Expr.tokens, Expr.leaves, Leaf.contents]
  parameter p _ := by simp [Expr.tokens, Expr.leaves, Leaf.contents]
  unary op operand type ih h := by
    rw [Expr.faults] at h
    cases op <;> simp [Expr.tokens, Expr.leaves, UnaryOp.leaves, Leaf.contents, ih h]
  binary left op right type ihl ihr h := by
    rw [Expr.faults, List.append_eq_nil_iff] at h
    simp [Expr.tokens, Expr.leaves, ihl h.1, ihr h.2]
  function call ih h := by
    rw [call.faults_eq, List.append_eq_nil_iff, List.flatMap_eq_nil_iff] at h
    have arguments := flatMap_contents ih h.2
    rw [call.tokens_eq, call.leaves_eq, List.flatMap_cons, ← arguments]
    cases niladic : call.isNiladic with
    | true => simp [arguments_of_niladic h.1 niladic, Leaf.contents, ownedName]
    | false => simp [Leaf.contents, ownedName, List.flatMap_map]
  subquery q ih h := by
    rw [Expr.faults] at h
    simp [Expr.tokens, Expr.leaves, ih h]
  exist q negated ih h := by
    rw [Expr.faults] at h
    cases negated <;> simp [Expr.tokens, Expr.leaves, ih h]
  inList item values negated ihi ihv h := by
    simp only [Expr.faults, Expr.faultsEach_eq, List.append_eq_nil_iff,
      List.flatMap_eq_nil_iff] at h
    have values := flatMap_contents ihv h.2
    simp [Expr.tokens, Expr.leaves, testWords, List.flatMap_map, ihi h.1.1, values]
  inSelect item q negated ihi ihq h := by
    rw [Expr.faults, List.append_eq_nil_iff] at h
    simp [Expr.tokens, Expr.leaves, testWords, ihi h.1, ihq h.2]
  like item pattern escape negated ihi ihp ihe h := by
    simp only [Expr.like_faults, List.append_eq_nil_iff, List.flatMap_eq_nil_iff] at h
    have escaped := flatMap_contents (fun e he => ihe e (Option.mem_toList.1 he)) h.2
    simp [Expr.like_tokens, Expr.leaves, testWords, List.flatMap_map, Option.toList_map,
      ihi h.1.1, ihp h.1.2, escaped]
  case operand whens otherwise type iho ihw ihe h := by
    simp only [Expr.case_faults, List.append_eq_nil_iff, List.flatMap_eq_nil_iff] at h
    have operands := flatMap_contents (fun e he => iho e (Option.mem_toList.1 he)) h.1.1.2
    have others := flatMap_contents (fun e he => ihe e (Option.mem_toList.1 he)) h.2
    have arms : (whens.flatMap fun w => contents (Expr.armTokens d o w)) =
        (whens.flatMap fun w => w.1.leaves d.pagingOrder ++ w.2.leaves d.pagingOrder).flatMap
          (Leaf.contents d o) := by
      refine flatMap_contents (fun w hw (none : w.1.faults d o ++ w.2.faults d o = []) => ?_)
        fun w hw => List.append_eq_nil_iff.2 (h.1.2 w hw)
      rw [List.append_eq_nil_iff] at none
      simp [Expr.armTokens, Token.arm, (ihw w hw).1 none.1, (ihw w hw).2 none.2]
    simp [Expr.case_tokens, Expr.leaves, List.flatMap_map, Option.toList_map, operands, arms,
      others]
  fragment text _ := by simp [Expr.tokens, Expr.leaves, Leaf.contents]
  block q ihp ihs ihj ihw ihg ihh iho ihl ihk h := by
    simp only [Select.faults_eq, List.append_eq_nil_iff, List.flatMap_eq_nil_iff] at h
    obtain ⟨⟨⟨⟨⟨⟨⟨⟨⟨⟨⟨⟨-, -⟩, front⟩, fp⟩, -⟩, fs⟩, fj⟩, fw⟩, fg⟩, fh⟩, fo⟩, -⟩, back⟩ := h
    obtain ⟨noLimit, noOffset⟩ := Dialect.parts_eq_nil hd front back
    have projections : (q.projections.flatMap fun p =>
        contents (p.expr.tokens d o ++ projectionAlias p.expr p.aliasName)) =
        (q.projections.flatMap (Projection.leaves d.pagingOrder)).flatMap (Leaf.contents d o) := by
      refine flatMap_contents (fun p hp none => ?_) fp
      simp [Projection.leaves, ihp p hp none, projectionAlias_eq, List.flatMap_map, Leaf.contents]
    have sources := flatMap_contents ihs fs
    have joins : (q.joins.flatMap fun j => contents (j.tokens d o)) =
        (q.joins.flatMap (Join.leaves d.pagingOrder)).flatMap (Leaf.contents d o) := by
      refine flatMap_contents (fun j hj none => ?_) fj
      simp only [Join.faults, List.append_eq_nil_iff, List.flatMap_eq_nil_iff] at none
      have predicate := flatMap_contents
        (fun e he => (ihj j hj).2 e (Option.mem_toList.1 he)) none.2
      simp [Join.tokens, Join.leaves, (ihj j hj).1 none.1.2, Option.toList_map, List.flatMap_map,
        predicate]
    have predicate := flatMap_contents (fun e he => ihw e (Option.mem_toList.1 he)) fw
    have groupBy := flatMap_contents ihg fg
    have having := flatMap_contents (fun e he => ihh e (Option.mem_toList.1 he)) fh
    have orderings : (q.orderings.flatMap fun t =>
        contents (t.expr.tokens d o ++ if t.ascending then [] else [Token.space, .word "DESC"])) =
        (q.orderings.flatMap fun t => t.expr.leaves d.pagingOrder).flatMap
          (Leaf.contents d o) := by
      refine flatMap_contents (fun t ht none => ?_) fo
      split <;> simp [iho t ht none]
    rw [q.tokens_eq, Dialect.contents_assemble hd, q.leaves_eq]
    simp only [Select.clauses, Select.bodyLeaves, ← List.append_assoc, List.flatMap_append,
      Option.toList_map, List.flatMap_map, projections, sources, joins, predicate, groupBy, having, orderings,
      option_contents ihl noLimit, option_contents ihk noOffset, Dialect.pagingOrder,
      Dialect.leadingParts_flatMap, Dialect.trailingParts_flatMap]
  table name schema aliasName _ := by
    cases h : givenName aliasName <;>
      simp [Source.tokens, Source.leaves, Leaf.contents, ownedName, h]
  derived q aliasName ih h := by
    rw [Source.faults, List.append_eq_nil_iff] at h
    simp [Source.tokens, Source.leaves, Leaf.contents, ih h.2]
  tableFunction call ih h := by
    rw [call.faults_eq, List.append_eq_nil_iff, List.flatMap_eq_nil_iff] at h
    have arguments := flatMap_contents ih h.2
    simp [call.tokens_eq, call.leaves_eq, Leaf.contents, ownedName, List.flatMap_map, arguments]
  set operation ihl ihr h := by
    rw [operation.faults_eq, List.append_eq_nil_iff, List.append_eq_nil_iff] at h
    simp [operation.tokens_eq, operation.leaves_eq, Leaf.contents, ihl h.1.2, ihr h.2]

theorem Select.raw_tokens {d : Dialect} {o : Options} (hd : d.BuiltIn) {s : Select}
    (none : s.faults d o = []) {P : String → Prop}
    (h : ∀ l ∈ s.leaves .ofFields, ∀ text ∈ l.rawText?, P text) {text : String}
    (mem : .verbatim text ∈ s.tokens d o) : P text :=
  raw_of_leaves ((contents_step hd o).ofSelect s none) (fun l hl => h l ((mem_leaves hd).1 hl)) mem

theorem Expr.raw_tokens {d : Dialect} {o : Options} (hd : d.BuiltIn) {e : Expr}
    (none : e.faults d o = []) {P : String → Prop}
    (h : ∀ l ∈ e.leaves .ofFields, ∀ text ∈ l.rawText?, P text) {text : String}
    (mem : .verbatim text ∈ e.tokens d o) : P text :=
  raw_of_leaves ((contents_step hd o).ofExpr e none)
    (fun l hl => h l (((perm_step hd).ofExpr e).mem_iff.1 hl)) mem

end SelectCompiler
