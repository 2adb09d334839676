import SelectCompiler.Proofs.Reader.Runs

/-!
Trees as readings: what the text of a tree should say. Types are forgotten, and columns, constants
and parameters are their lexemes.
-/

namespace SelectCompiler

open Token (after)

/-- Whether a chain of the operator goes on through an operand without parentheses: sums and products
go through all of their operators, other chains through one. -/
def BinaryOp.runsOn (op inner : BinaryOp) : Bool :=
  inner == op || (decide (5 < op.rank) && inner.rank == op.rank)

namespace Reading

def isBinary (op : BinaryOp) : Reading → Bool
  | .binary _ inner _ => inner == op
  | _ => false

/-- Puts `x op` in front of a chain, which is then grouped to the left. -/
def graft (op : BinaryOp) (x : Reading) : Reading → Reading
  | .binary l inner r =>
    if op.runsOn inner then .binary (graft op x l) inner r else .binary x op (.binary l inner r)
  | r => .binary x op r

/-- Operands as they are read where the right one has parentheses only if the operator is not
associative or another. -/
def attach (op : BinaryOp) (x y : Reading) : Reading :=
  if op.isAssociative && y.isBinary op then graft op x y else .binary x op y

/-- A constant; the sign of a negative number is an operator. -/
def constant : List Lexeme → Reading
  | .operator .subtract :: ls => .negate (.atom ls)
  | ls => .atom ls

end Reading

/-- Whether the dialect has a call in place of the operator. -/
def Dialect.calls (d : Dialect) (op : BinaryOp) : Bool := op == .concat && d.concatOperator.isNone

mutual

/-- The reading of an expression, with operands put together by `join`. There is none of `ESCAPE` and
of raw text. -/
def Expr.readingBy (join : BinaryOp → Reading → Reading → Reading) (d : Dialect) (o : Options) :
    Nat → Expr → Reading
  | n, .column c => .atom (d.lexemes n ((Expr.column c).tokens d o))
  | n, .literal l => .constant (d.lexemes n [d.literalToken o l])
  | n, .parameter p => .atom (d.lexemes n ((Expr.parameter p).tokens d o))
  | n, .unary .not e _ => .not (e.readingBy join d o n)
  | n, .unary .negate e _ => .negate (e.readingBy join d o n)
  | n, .unary .isNull e _ => .isNull (e.readingBy join d o n) false
  | n, .unary .isNotNull e _ => .isNull (e.readingBy join d o n) true
  | n, .unary (.cast target) e _ => .cast (e.readingBy join d o n) (d.lexemes n [d.typeToken target])
  | n, .binary left op right _ =>
    let x := left.readingBy join d o n
    let y := right.readingBy join d o (after n (left.tokens d o))
    if d.calls op then .call [.word "CONCAT"] [x, y] else join op x y
  | n, .function ⟨name, schema, isBuiltIn, isNiladic, _, _, arguments, _⟩ =>
    let head := d.lexemes n (Token.qualified (d.schemaOf isBuiltIn schema)
      (Dialect.functionToken isBuiltIn name))
    if isNiladic && arguments.isEmpty then .atom head
    else .call head (Expr.readingsBy join d o n arguments)
  | n, .subquery q => .subquery (d.lexemes n (q.tokens d o))
  | n, .exists q false => .exists (d.lexemes n (q.tokens d o))
  | n, .exists q true => .not (.exists (d.lexemes n (q.tokens d o)))
  | n, .inList item values negated =>
    .inList (item.readingBy join d o n)
      (Expr.readingsBy join d o (after n (item.tokens d o)) values) negated
  | n, .inSelect item q negated =>
    .inSelect (item.readingBy join d o n)
      (d.lexemes (after n (item.tokens d o)) (q.tokens d o)) negated
  | n, .like item pattern none negated =>
    .like (item.readingBy join d o n)
      (pattern.readingBy join d o (after n (item.tokens d o))) negated
  | _, .like _ _ (some _) _ => .atom []
  | n, .case operand whens otherwise _ =>
    let first := match operand with
      | some e => after n (e.tokens d o)
      | none => n
    let last := after first (Expr.tokensWhens d o whens).flatten
    .case
      (match operand with
        | some e => some (e.readingBy join d o n)
        | none => none)
      (Expr.readingWhens join d o first whens)
      (match otherwise with
        | some e => some (e.readingBy join d o last)
        | none => none)
  | _, .fragment _ => .atom []

def Expr.readingsBy (join : BinaryOp → Reading → Reading → Reading) (d : Dialect) (o : Options) :
    Nat → List Expr → List Reading
  | _, [] => []
  | n, e :: es =>
    e.readingBy join d o n :: Expr.readingsBy join d o (after n (e.tokens d o)) es

def Expr.readingWhens (join : BinaryOp → Reading → Reading → Reading) (d : Dialect) (o : Options) :
    Nat → List (Expr × Expr) → List (Reading × Reading)
  | _, [] => []
  | n, (condition, result) :: whens =>
    let middle := after n (condition.tokens d o)
    (condition.readingBy join d o n, result.readingBy join d o middle) ::
      Expr.readingWhens join d o (after middle (result.tokens d o)) whens

end

theorem FunctionCall.reading_eq (join : BinaryOp → Reading → Reading → Reading) (d : Dialect)
    (o : Options) (n : Nat) (call : FunctionCall) :
    (Expr.function call).readingBy join d o n =
      if call.isNiladic && call.arguments.isEmpty then
        .atom (d.lexemes n (Token.qualified (d.schemaOf call.isBuiltIn call.schema)
          (Dialect.functionToken call.isBuiltIn call.name)))
      else
        .call (d.lexemes n (Token.qualified (d.schemaOf call.isBuiltIn call.schema)
          (Dialect.functionToken call.isBuiltIn call.name)))
          (Expr.readingsBy join d o n call.arguments) := by
  cases call
  rw [Expr.readingBy]

theorem Expr.case_reading (join : BinaryOp → Reading → Reading → Reading) (d : Dialect)
    (o : Options) (n : Nat) (operand : Option Expr) (whens : List (Expr × Expr))
    (otherwise : Option Expr) (type : SqlType) :
    (Expr.case operand whens otherwise type).readingBy join d o n =
      .case (operand.map (Expr.readingBy join d o n))
        (Expr.readingWhens join d o (after n (operand.toList.flatMap (Expr.tokens d o))) whens)
        (otherwise.map (Expr.readingBy join d o
          (after (after n (operand.toList.flatMap (Expr.tokens d o)))
            (Expr.tokensWhens d o whens).flatten))) := by
  cases operand <;> cases otherwise <;> simp [Expr.readingBy]

/-! ### Expressions that are read alike -/

section Alike

variable {join join' : BinaryOp → Reading → Reading → Reading} {d : Dialect} {o : Options}

/-- Two expressions with one reading and as many placeholders. -/
def Expr.IsReadAs (join join' : BinaryOp → Reading → Reading → Reading) (d : Dialect) (o : Options)
    (e e' : Expr) : Prop :=
  ∀ n, after n (e.tokens d o) = after n (e'.tokens d o) ∧
    e.readingBy join d o n = e'.readingBy join' d o n

theorem Expr.readingsBy_congr {es es' : List Expr}
    (h : List.Forall₂ (IsReadAs join join' d o) es es') (n : Nat) :
    readingsBy join d o n es = readingsBy join' d o n es' := by
  induction h generalizing n with
  | nil => rfl
  | cons first rest ih => rw [readingsBy, readingsBy, (first n).1, (first n).2, ih]

theorem Expr.readingWhens_congr {ws ws' : List (Expr × Expr)}
    (h : List.Forall₂ (fun w w' => IsReadAs join join' d o w.1 w'.1 ∧
      IsReadAs join join' d o w.2 w'.2) ws ws') (n : Nat) :
    readingWhens join d o n ws = readingWhens join' d o n ws' ∧
      after n (tokensWhens d o ws).flatten = after n (tokensWhens d o ws').flatten := by
  induction h generalizing n with
  | nil => exact ⟨rfl, rfl⟩
  | @cons w w' ws ws' first rest ih =>
    obtain ⟨c, r⟩ := w
    obtain ⟨c', r'⟩ := w'
    obtain ⟨placeholders, condition⟩ := first.1 n
    obtain ⟨placeholders', result⟩ := first.2 (after n (c'.tokens d o))
    obtain ⟨readings, last⟩ := ih (after (after n (c'.tokens d o)) (r'.tokens d o))
    simp only at placeholders placeholders' condition result
    constructor
    · rw [readingWhens, readingWhens, placeholders, condition, result, placeholders', readings]
    · simpa [placeholders, placeholders'] using last

end Alike

/-! ### Chains -/

namespace BinaryOp

theorem runsOn_self (op : BinaryOp) : op.runsOn op = true := by simp [runsOn]

theorem rank_of_runsOn {op inner : BinaryOp} (h : op.runsOn inner = true) :
    inner.rank = op.rank := by
  simp only [runsOn, Bool.or_eq_true, Bool.and_eq_true, beq_iff_eq] at h
  rcases h with rfl | ⟨-, same⟩
  · rfl
  · exact same

theorem runsOn_trans {a b c : BinaryOp} (h : a.runsOn b = true) (h' : b.runsOn c = true) :
    a.runsOn c = true := by
  have rank := rank_of_runsOn h
  simp only [runsOn, Bool.or_eq_true, Bool.and_eq_true, beq_iff_eq, decide_eq_true_eq] at h h' ⊢
  rcases h with rfl | ⟨high, -⟩
  · exact h'
  · rcases h' with rfl | ⟨-, same⟩
    · exact .inr ⟨high, rank⟩
    · exact .inr ⟨high, same.trans rank⟩

end BinaryOp

namespace Reading

theorem graft_of_not {op : BinaryOp} {y : Reading}
    (h : ∀ l inner r, y = .binary l inner r → op.runsOn inner = false) (x : Reading) :
    graft op x y = .binary x op y := by
  cases y with
  | binary l inner r => rw [graft, h l inner r rfl, if_neg (by simp)]
  | _ => rfl

theorem graft_graft {a b : BinaryOp} (h : a.runsOn b = true) (x y z : Reading) :
    graft a x (graft b y z) = graft b (graft a x y) z := by
  induction z using graft.induct b with
  | case1 l inner r runs ih =>
    rw [graft, if_pos runs, graft, if_pos (BinaryOp.runsOn_trans h runs), ih, graft, if_pos runs]
  | case2 l inner r stops => rw [graft, if_neg stops, graft, if_pos h, graft, if_neg stops]
  | case3 z other =>
    have last (w : Reading) : graft b w z = .binary w b z :=
      graft_of_not (fun l inner r eq => absurd eq (other l inner r)) w
    rw [last, last, graft, if_pos h]

theorem graft_attach {a b : BinaryOp} (h : a.runsOn b = true) (x y z : Reading) :
    graft a x (attach b y z) = attach b (graft a x y) z := by
  unfold attach
  split
  · exact graft_graft h x y z
  · rw [graft, if_pos h]

theorem isBinary_graft {op : BinaryOp} {x y : Reading} (h : y.isBinary op = true) :
    ∃ l r, y = .binary l op r ∧ graft op x y = .binary (graft op x l) op r := by
  cases y with
  | binary l inner r =>
    obtain rfl : inner = op := by simpa [isBinary] using h
    exact ⟨l, r, rfl, by rw [graft, if_pos inner.runsOn_self]⟩
  | _ => cases h

/-- However operands are attached, the operator stays on top. -/
theorem attach_eq_binary (op : BinaryOp) (x y : Reading) :
    ∃ l r, attach op x y = .binary l op r := by
  unfold attach
  split
  · rename_i chain
    rw [Bool.and_eq_true] at chain
    obtain ⟨l, r, rfl, eq⟩ := isBinary_graft (x := x) chain.2
    exact ⟨_, _, eq⟩
  · exact ⟨_, _, rfl⟩

end Reading

end SelectCompiler
