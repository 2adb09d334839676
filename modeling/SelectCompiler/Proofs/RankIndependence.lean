import SelectCompiler.Proofs.Reader.OperatorTrees
import SelectCompiler.Proofs.Reader.RankedRuns

/-!
String and bitwise operators. Main statement: an expression of operators over columns is grouped in
one way, wherever a reader ranks `||`, `&` and `|` among the arithmetic operators, and no run of
value operators in its text has one of these next to another operator.
-/

namespace SelectCompiler

open Token (after enclosedIf qualified)

variable {d : Dialect} {o : Options} {e : Expr}

/-! ### Runs with plus signs in them -/

theorem IsUniform.shown {ops : List BinaryOp} (h : IsUniform ops) (plus : Bool) :
    IsUniform (ops.map (BinaryOp.shown plus)) := by
  rcases h with arithmetic | ⟨single, other, same⟩
  · refine .inl fun op' hop' => ?_
    obtain ⟨op, hop, rfl⟩ := List.mem_map.1 hop'
    rw [BinaryOp.shown_of_isArithmetic (arithmetic op hop)]
    exact arithmetic op hop
  · have value : single.isValueOperator = true := by cases single <;> first | rfl | cases other
    rw [← BinaryOp.isValueOperator_shown plus] at value
    refine isUniform_of_alike value fun op' hop' => ?_
    obtain ⟨op, hop, rfl⟩ := List.mem_map.1 hop'
    rw [same op hop]
    exact .inl rfl

namespace OpenRuns

def shown (plus : Bool) : OpenRuns → OpenRuns
  | ⟨ended, run, outer⟩ =>
    ⟨ended, run.map (BinaryOp.shown plus), outer.map (List.map (BinaryOp.shown plus))⟩

theorem step_shown (plus : Bool) (state : OpenRuns) (l : Lexeme) :
    (state.shown plus).step (l.shown plus) =
      ((state.step l).1.shown plus, (state.step l).2.map (List.map (BinaryOp.shown plus))) := by
  obtain ⟨ended, run, outer⟩ := state
  cases l with
  | closing => cases outer <;> rfl
  | operator op =>
    simp only [Lexeme.shown, shown, step, BinaryOp.isValueOperator_shown]
    cases op.isValueOperator with
    | true => cases ended <;> simp
    | false => rfl
  | _ => rfl

theorem ends_shown (plus : Bool) (state : OpenRuns) (ls : List Lexeme) :
    (state.shown plus).ends (ls.map (Lexeme.shown plus)) =
      (state.ends ls).map (List.map (BinaryOp.shown plus)) := by
  induction ls generalizing state with
  | nil => rfl
  | cons l ls ih => rw [List.map_cons, ends, ends, step_shown, ih, List.map_append]

end OpenRuns

theorem valueRuns_shown (plus : Bool) (ls : List Lexeme) :
    valueRuns (ls.map (Lexeme.shown plus)) =
      (valueRuns ls).map (List.map (BinaryOp.shown plus)) :=
  OpenRuns.ends_shown plus ⟨false, [], []⟩ ls

/-! ### Lexemes of operators over columns -/

namespace Expr.IsOperatorTree

theorem plain_lexemes (spells : ∀ op, d.Spells op) (h : e.IsOperatorTree) (n : Nat) :
    ∀ l ∈ d.lexemes n (e.tokens d o), l.IsPlain := by
  have operand {e : Expr} (needed : Bool) {n : Nat}
      (ih : ∀ l ∈ d.lexemes n (e.tokens d o), l.IsPlain) :
      ∀ l ∈ d.lexemes n (enclosedIf needed (e.tokens d o)), l.IsPlain := by
    rw [Dialect.lexemes_enclosedIf]
    split
    · simp only [List.forall_mem_cons, List.forall_mem_append]
      exact ⟨trivial, ih, trivial, nofun⟩
    · exact ih
  induction h generalizing n with
  | column c =>
    rw [tokens]
    cases givenName c.table <;> simp [qualified, Lexeme.IsPlain]
  | not type h ih =>
    rw [tokens, Dialect.lexemes_reserved (l := .keyword .not) (by decide), Dialect.lexemes_space]
    exact List.forall_mem_cons.2 ⟨trivial, operand _ (ih n)⟩
  | negate type h ih =>
    rw [tokens, Dialect.lexemes_minus]
    exact List.forall_mem_cons.2 ⟨trivial, operand _ (ih n)⟩
  | @binary left right op type hl hr ihl ihr =>
    have second := ihr (after n (left.tokens d o))
    cases call : d.calls op with
    | true =>
      rw [lexemes_binaryCall left right type n call]
      have first := ihl n
      simp only [List.forall_mem_cons, List.forall_mem_append]
      exact ⟨trivial, trivial, ⟨first, trivial, second⟩, trivial, nofun⟩
    | false =>
      rw [lexemes_binaryInfix left right type n (spells op) call]
      exact List.forall_mem_append.2 ⟨operand _ (ihl n),
        List.forall_mem_cons.2 ⟨trivial, operand _ second⟩⟩

/-- SQL Server's text has a plus sign in place of `||`, and is otherwise the text for PostgreSQL. -/
theorem lexemes_sqlServer (schema : String) (h : e.IsOperatorTree) (n m : Nat) :
    (Dialect.sqlServer schema).lexemes n (e.tokens (.sqlServer schema) o) =
      (Dialect.postgres.lexemes m (e.tokens .postgres o)).map (Lexeme.shown true) := by
  have operand {e : Expr} (needed : Bool) {n m : Nat}
      (ih : (Dialect.sqlServer schema).lexemes n (e.tokens (.sqlServer schema) o) =
        (Dialect.postgres.lexemes m (e.tokens .postgres o)).map (Lexeme.shown true)) :
      (Dialect.sqlServer schema).lexemes n (enclosedIf needed (e.tokens (.sqlServer schema) o)) =
        (Dialect.postgres.lexemes m (enclosedIf needed (e.tokens .postgres o))).map
          (Lexeme.shown true) := by
    rw [Dialect.lexemes_enclosedIf, Dialect.lexemes_enclosedIf, ih]
    cases needed with
    | false => rfl
    | true => simp [Lexeme.shown]
  induction h generalizing n m with
  | column c =>
    rw [tokens, tokens]
    cases givenName c.table <;> simp [qualified, Lexeme.shown]
  | not type h ih =>
    rw [tokens, tokens, Dialect.lexemes_reserved (l := .keyword .not) (by decide),
      Dialect.lexemes_reserved (l := .keyword .not) (by decide), Dialect.lexemes_space,
      Dialect.lexemes_space, operand _ (ih n m)]
    rfl
  | negate type h ih =>
    rw [tokens, tokens, Dialect.lexemes_minus, Dialect.lexemes_minus, operand _ (ih n m)]
    rfl
  | @binary left right op type hl hr ihl ihr =>
    have same (d : Dialect) (other : op ≠ .concat) : d.Spells op := fun eq => absurd eq other
    have spelled : (Dialect.sqlServer schema).operatorToken op =
        (Dialect.sqlServer schema).operatorToken (op.shown true) := by
      cases op <;> rfl
    have spells : (Dialect.sqlServer schema).Spells (op.shown true) := fun eq => by
      cases op <;> cases eq
    have noCall (d : Dialect) (h : d.concatOperator.isNone = false) : d.calls op = false := by
      rw [Dialect.calls, h, Bool.and_false]
    rw [lexemes_binaryInfix left right type m (fun _ => rfl) (noCall .postgres rfl), tokens,
      Dialect.binaryTokens, ← Dialect.calls, noCall (.sqlServer schema) rfl,
      if_neg Bool.false_ne_true, Dialect.lexemes_append, Dialect.lexemes_space, spelled,
      Dialect.lexemes_operator spells, Dialect.lexemes_space, operand _ (ihl n m),
      operand _ (ihr _ _), List.map_append]
    rfl

end Expr.IsOperatorTree

/-- Every dialect writes what a dialect with `||` or with `CONCAT` does, or a plus sign in place of
`||`. -/
theorem Dialect.BuiltIn.exists_spelling (hd : d.BuiltIn) :
    ∃ (d' : Dialect) (plus : Bool), d'.BuiltIn ∧ (∀ op, d'.Spells op) ∧
      ∀ (e : Expr) (o : Options) (n : Nat), e.IsOperatorTree → d.lexemes n (e.tokens d o) =
        (d'.lexemes n (e.tokens d' o)).map (Lexeme.shown plus) := by
  have own (ls : List Lexeme) : ls = ls.map (Lexeme.shown false) := by
    have same : Lexeme.shown false = id := by
      funext l
      cases l with
      | operator op => cases op <;> rfl
      | _ => rfl
    rw [same, List.map_id]
  cases hd with
  | postgres => exact ⟨_, false, .postgres, fun _ _ => rfl, fun e o n h => own _⟩
  | mysql => exact ⟨_, false, .mysql, fun _ _ => rfl, fun e o n h => own _⟩
  | sqlite => exact ⟨_, false, .sqlite, fun _ _ => rfl, fun e o n h => own _⟩
  | sqlServer schema =>
    exact ⟨_, true, .postgres, fun _ _ => rfl, fun e o n h => h.lexemes_sqlServer schema n n⟩
  | oracle => exact ⟨_, false, .oracle, fun _ _ => rfl, fun e o n h => own _⟩

/-! ### Reading with other ranks -/

/-- What the text of an expression means does not depend on where a reader ranks `||`, `&` and `|`
among the value operators: each run of these is arithmetic, or has one other operator only. -/
theorem Expr.IsOperatorTree.readBy_text (hd : d.BuiltIn) (h : e.IsOperatorTree) (o : Options)
    (n : Nat) :
    ∃ ls r, d.lex (String.join (d.texts n (e.tokens d o))) = some ls ∧
      (∀ run ∈ valueRuns ls, IsUniform run) ∧
      ∀ R : Ranking, d.readBy R (String.join (d.texts n (e.tokens d o))) = some r := by
  obtain ⟨d', plus, hd', spells, shown⟩ := hd.exists_spelling
  have lexed := Dialect.lex_phrase hd ((phrase_step hd o).ofExpr e) (h.tokens_ordinary hd) n
  have uniform : ∀ run ∈ valueRuns (d'.lexemes n (e.tokens d' o)), IsUniform run := by
    obtain ⟨run, uniform, carries⟩ := (h.hasRuns spells (o := o)).alone n
    intro ended mem
    rw [valueRuns, ← List.append_nil (d'.lexemes n (e.tokens d' o))] at mem
    rcases carries [] [] ended mem with uniform' | mem
    · exact uniform'
    · rw [List.mem_singleton.1 mem]
      exact uniform
  have read := (h.isReadable.isRead hd' (fun op _ _ => spells op) h.faults_eq_nil
    (h.leaves_ordinary _) (o := o)).run n
  have tracks : Tracks ⟨false, [], []⟩ ⟨.operand, [], []⟩ := ⟨rfl, List.nil_subset _, .nil⟩
  rw [shown e o n h] at lexed
  refine ⟨_, (e.readingBy .attach d' o n).shown plus, lexed, fun run hrun => ?_, fun R => ?_⟩
  · rw [valueRuns_shown] at hrun
    obtain ⟨run', hrun', rfl⟩ := List.mem_map.1 hrun
    exact (uniform run' hrun').shown plus
  · rw [Dialect.readBy, lexed, Option.bind_some]
    exact R.run_shown (h.plain_lexemes spells n) tracks uniform read

/-- A chain within a chain, with a sum in it, next to a negated operand. -/
def mixedOperators : Expr :=
  let a : Expr := .column ⟨"a", none, .int, false⟩
  let b : Expr := .column ⟨"b", none, .int, false⟩
  let bits : Expr := .binary a .bitwiseAnd b .int
  .binary (.binary a .concat (.binary b .concat (.binary a .add b .int) .text) .text) .equal
    (.unary .negate bits .int) .boolean

theorem readBy_text_mixedOperators :
    let text := "\"a\" || \"b\" || (\"a\" + \"b\") = -(\"a\" & \"b\")"
    let a : Reading := .atom [.name "a"]
    let b : Reading := .atom [.name "b"]
    let r : Reading := .binary (.binary (.binary a .concat b) .concat (.binary a .add b)) .equal
      (.negate (.binary a .bitwiseAnd b))
    Dialect.postgres.readBy .usual text = some r ∧
      Dialect.postgres.readBy .concatFirst text = some r := by
  have column (c : Column) : (Expr.column c).IsOperatorTree := .column c
  have tree : mixedOperators.IsOperatorTree :=
    .binary _ _ (.binary _ _ (column _)
      (.binary _ _ (column _) (.binary _ _ (column _) (column _))))
      (.negate _ (.binary _ _ (column _) (column _)))
  have text : String.join (Dialect.postgres.texts 1 (mixedOperators.tokens .postgres {})) =
      "\"a\" || \"b\" || (\"a\" + \"b\") = -(\"a\" & \"b\")" := by decide
  obtain ⟨ls, r, -, -, same⟩ := tree.readBy_text .postgres {} 1
  rw [text] at same
  exact ⟨rfl, (same .concatFirst).trans ((same .usual).symm.trans rfl)⟩

end SelectCompiler
