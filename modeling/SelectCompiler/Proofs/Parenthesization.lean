import SelectCompiler.Proofs.Reader.Correct

/-!
Parentheses. Main statement: reading the text of an expression by the ranks of its operators gives
back the expression, but for the grouping of chains that is the same in either way.
-/

namespace SelectCompiler

open Token (after)

/-- Operands as they are read where `AND`, `OR`, `||`, `&` and `|` are associative: a chain of one of
them is grouped to the left. -/
def Reading.chained (op : BinaryOp) (x y : Reading) : Reading :=
  if op.rank ≤ 5 then attach op x y else .binary x op y

/-- No sum to the right of a plus sign, no product to the right of a multiplication. -/
def IsSeparateOperand (op : BinaryOp) (right : Expr) : Prop :=
  op = .add ∨ op = .multiply → right.isBinary op = false

variable {d : Dialect} {o : Options}

theorem Reading.chained_eq_attach {op : BinaryOp} {y : Reading}
    (h : op = .add ∨ op = .multiply → y.isBinary op = false) (x : Reading) :
    chained op x y = attach op x y := by
  unfold chained
  split
  · rfl
  · rename_i high
    have notChain : (op.isAssociative && y.isBinary op) = false := by
      cases op with
      | add => simp [h]
      | multiply => simp [h]
      | subtract => rfl
      | divide => rfl
      | modulo => rfl
      | _ => exact absurd (by decide) high
    rw [attach, notChain, if_neg Bool.false_ne_true]

theorem Expr.reading_chained {e : Expr} (h : e.IsReadable IsSeparateOperand) (n : Nat) :
    e.readingBy .chained d o n = e.readingBy .attach d o n := by
  have each {es : List Expr}
      (ih : ∀ e ∈ es, ∀ n, e.readingBy .chained d o n = e.readingBy .attach d o n) (n : Nat) :
      readingsBy .chained d o n es = readingsBy .attach d o n es :=
    readingsBy_congr (List.forall₂_same.2 fun e he n => ⟨rfl, ih e he n⟩) n
  have option {e? : Option Expr}
      (ih : ∀ e ∈ e?, ∀ n, e.readingBy .chained d o n = e.readingBy .attach d o n) (n : Nat) :
      e?.map (readingBy .chained d o n) = e?.map (readingBy .attach d o n) := by
    cases e? with
    | none => rfl
    | some e => rw [Option.map_some, Option.map_some, ih e rfl]
  induction h generalizing n with
  | column c => rfl
  | literal l => rfl
  | parameter p => rfl
  | unary op type h ih => cases op <;> simp only [readingBy, ih]
  | @binary left op right type hl hr separate ihl ihr =>
    cases call : d.calls op with
    | true => simp only [readingBy, ihl, ihr, call, if_true]
    | false =>
      rw [readingBy, readingBy, ihl, ihr, call, if_neg Bool.false_ne_true,
        if_neg Bool.false_ne_true]
      refine Reading.chained_eq_attach (fun arithmetic => ?_) _
      rw [isBinary_reading call]
      exact separate arithmetic
  | @function call h ih => rw [call.reading_eq, call.reading_eq, each ih]
  | subquery q => rfl
  | exist q => rfl
  | inList negated hi hv ihi ihv => rw [readingBy, readingBy, ihi, each ihv]
  | inSelect q negated hi ihi => rw [readingBy, readingBy, ihi]
  | like negated hi hp ihi ihp => rw [readingBy, readingBy, ihi, ihp]
  | case type ho hc hr he iho ihc ihr ihe =>
    have arms (n : Nat) := (readingWhens_congr (List.forall₂_same.2 fun w hw =>
      ⟨fun n => ⟨rfl, ihc w hw n⟩, fun n => ⟨rfl, ihr w hw n⟩⟩) n).1
    rw [case_reading, case_reading, option iho, arms, option ihe]

/-- Wherever an expression stands in a query, its text is read as the expression itself: operators,
calls, tests and lists with the operands that they have in the tree. -/
theorem Expr.read_text
    (hd : d ∈ [Dialect.postgres, Dialect.sqlite, Dialect.oracle, Dialect.mysql]) {e : Expr}
    (readable : e.IsReadable IsSeparateOperand)
    (ordinary : ∀ l ∈ e.leaves .ofFields, l.IsOrdinary) (faultless : e.faults d o = []) (n : Nat) :
    d.read (String.join (d.texts n (e.tokens d o))) = some (e.readingBy .chained d o n) := by
  have builtIn : d.BuiltIn := by
    simp only [List.mem_cons, List.not_mem_nil, or_false] at hd
    rcases hd with rfl | rfl | rfl | rfl
    · exact .postgres
    · exact .sqlite
    · exact .oracle
    · exact .mysql
  have spells (op : BinaryOp) : d.Spells op := fun _ => by
    simp only [List.mem_cons, List.not_mem_nil, or_false] at hd
    rcases hd with rfl | rfl | rfl | rfl <;> rfl
  have ordinary' : ∀ l ∈ e.leaves d.pagingOrder, l.IsOrdinary := fun l hl =>
    ordinary l (((perm_step builtIn).ofExpr e).mem_iff.1 hl)
  rw [readable.read builtIn (fun op _ _ => spells op) faultless ordinary', reading_chained readable]

/-- A chain within a chain, and a call with a sum to the right of a difference. -/
def nestedOperators : Expr :=
  let a : Expr := .column ⟨"a", none, .int, false⟩
  let b : Expr := .column ⟨"b", none, .int, false⟩
  let sum : Expr := .binary a .subtract (.binary b .add a .int) .int
  .binary (.unary .not (.binary a .or b .boolean) .boolean) .and
    (.binary (.function ⟨"ABS", none, true, false, false, [true], [sum], .int⟩) .and b .boolean)
    .boolean

theorem read_text_nestedOperators :
    Dialect.postgres.read "NOT (\"a\" OR \"b\") AND ABS(\"a\" - (\"b\" + \"a\")) AND \"b\"" =
      some (.binary (.binary (.not (.binary (.atom [.name "a"]) .or (.atom [.name "b"]))) .and
        (.call [.word "ABS"] [.binary (.atom [.name "a"]) .subtract
          (.binary (.atom [.name "b"]) .add (.atom [.name "a"]))])) .and (.atom [.name "b"])) := by
  have readable : nestedOperators.IsReadable IsSeparateOperand := by
    have column (c : Column) : (Expr.column c).IsReadable IsSeparateOperand := .column c
    refine .binary _ (.unary _ _ (.binary _ (column _) (column _) fun _ => rfl))
      (.binary _ (.function fun e he => ?_) (column _) fun _ => rfl)
      fun sum => absurd sum (by decide)
    obtain rfl := List.mem_singleton.1 he
    exact .binary _ (column _) (.binary _ (column _) (column _) fun _ => rfl)
      fun sum => absurd sum (by decide)
  have text : String.join (Dialect.postgres.texts 1 (nestedOperators.tokens .postgres {})) =
      "NOT (\"a\" OR \"b\") AND ABS(\"a\" - (\"b\" + \"a\")) AND \"b\"" := by decide
  rw [← text, Expr.read_text (by decide) readable (by decide) rfl 1]
  rfl

end SelectCompiler
