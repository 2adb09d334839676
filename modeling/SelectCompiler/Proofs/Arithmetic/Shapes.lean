import SelectCompiler.Proofs.Arithmetic.Values
import SelectCompiler.Proofs.Reader.Correct

/-!
The shapes of arithmetic expressions, and the products that lose their parentheses although a
quotient stands in front of them.
-/

namespace SelectCompiler

open Token (after)

namespace Expr

inductive IsOperand : Expr → Prop where
  | column (c : Column) : IsOperand (.column c)
  | number (n : Int64) (type : SqlType) : IsOperand (.literal ⟨.int n, type⟩)

/-- Columns and whole numbers under arithmetic. -/
inductive IsArithmetic : Expr → Prop where
  | operand {e : Expr} (h : e.IsOperand) : IsArithmetic e
  | negate {operand : Expr} (type : SqlType) (h : IsArithmetic operand) :
    IsArithmetic (.unary .negate operand type)
  | binary {left : Expr} {op : BinaryOp} {right : Expr} (type : SqlType)
    (arithmetic : op.isArithmetic = true) (hl : IsArithmetic left) (hr : IsArithmetic right) :
    IsArithmetic (.binary left op right type)

/-- Expressions that differ in their operands and in types alone. -/
inductive SameShape : Expr → Expr → Prop where
  | operand {e e' : Expr} (h : e.IsOperand) (h' : e'.IsOperand) : SameShape e e'
  | negate {e e' : Expr} (type type' : SqlType) (h : SameShape e e') :
    SameShape (.unary .negate e type) (.unary .negate e' type')
  | binary {l l' r r' : Expr} {op : BinaryOp} (type type' : SqlType)
    (arithmetic : op.isArithmetic = true) (hl : SameShape l l') (hr : SameShape r r') :
    SameShape (.binary l op r type) (.binary l' op r' type')

/-- Whether a quotient or a remainder stands in front of the written product. -/
def dividesFirst : Expr → Bool
  | .binary _ .divide _ _ | .binary _ .modulo _ _ => true
  | .binary left .multiply _ _ => left.dividesFirst
  | _ => false

/-- Whether the right operand of a multiplication loses parentheses that its value depends on. -/
def losesQuotient (op : BinaryOp) (right : Expr) : Bool :=
  op == .multiply && right.isBinary .multiply && right.dividesFirst

/-- Whether every multiplication leaves the quotients to its right alone. -/
def keepsQuotients : Expr → Bool
  | .unary _ operand _ => operand.keepsQuotients
  | .binary left op right _ =>
    left.keepsQuotients && right.keepsQuotients && !losesQuotient op right
  | _ => true

/-! ### Shapes -/

variable {e e' : Expr}

namespace IsOperand

theorem isBinary (h : e.IsOperand) (op : BinaryOp) : e.isBinary op = false := by
  cases h <;> rfl

theorem dividesFirst (h : e.IsOperand) : e.dividesFirst = false := by
  cases h <;> rfl

theorem keepsQuotients (h : e.IsOperand) : e.keepsQuotients = true := by
  cases h <;> rfl

end IsOperand

namespace SameShape

theorem isArithmetic (h : e.SameShape e') : e'.IsArithmetic := by
  induction h with
  | operand h h' => exact .operand h'
  | negate type type' h ih => exact .negate type' ih
  | binary type type' arithmetic hl hr ihl ihr => exact .binary type' arithmetic ihl ihr

theorem isBinary (h : e.SameShape e') (op : BinaryOp) : e'.isBinary op = e.isBinary op := by
  cases h with
  | operand h h' => rw [h.isBinary, h'.isBinary]
  | negate type type' h => rfl
  | binary type type' arithmetic hl hr => rfl

theorem dividesFirst (h : e.SameShape e') : e'.dividesFirst = e.dividesFirst := by
  induction h with
  | operand h h' => rw [h.dividesFirst, h'.dividesFirst]
  | negate type type' h ih => rfl
  | @binary l l' r r' op type type' arithmetic hl hr ihl ihr =>
    cases op with
    | multiply => exact ihl
    | _ => rfl

theorem keepsQuotients (h : e.SameShape e') : e'.keepsQuotients = e.keepsQuotients := by
  induction h with
  | operand h h' => rw [h.keepsQuotients, h'.keepsQuotients]
  | negate type type' h ih => exact ih
  | binary type type' arithmetic hl hr ihl ihr =>
    rw [Expr.keepsQuotients, Expr.keepsQuotients, losesQuotient, losesQuotient, ihl, ihr,
      hr.isBinary, hr.dividesFirst]

end SameShape

/-! ### Reading arithmetic -/

variable {d : Dialect} {o : Options}

theorem calls_of_isArithmetic {op : BinaryOp} (arithmetic : op.isArithmetic = true) :
    d.calls op = false := by
  cases op <;> first | rfl | cases arithmetic

theorem binary_reading {op : BinaryOp} (arithmetic : op.isArithmetic = true) (left right : Expr)
    (type : SqlType) (n : Nat) :
    (Expr.binary left op right type).readingBy .attach d o n =
      .attach op (left.readingBy .attach d o n)
        (right.readingBy .attach d o (after n (left.tokens d o))) := by
  rw [readingBy, calls_of_isArithmetic arithmetic, if_neg Bool.false_ne_true]

namespace IsArithmetic

theorem isReadable (h : e.IsArithmetic) : e.IsReadable fun op _ => op.isArithmetic = true := by
  induction h with
  | operand h =>
    cases h with
    | column c => exact .column c
    | number n type => exact .literal _
  | negate type h ih => exact .unary .negate type ih
  | binary type arithmetic hl hr ihl ihr => exact .binary type ihl ihr arithmetic

theorem faults_nil (h : e.IsArithmetic) : e.faults d o = [] := by
  induction h with
  | operand h =>
    cases h with
    | column c => rfl
    | number n type =>
      rw [faults, literalFaults]
      split <;> rfl
  | negate type h ih => rw [faults, ih]
  | binary type arithmetic hl hr ihl ihr => rw [faults, ihl, ihr, List.nil_append]

theorem isOrdinary_leaves (h : e.IsArithmetic) (order : PagingOrder) :
    ∀ l ∈ e.leaves order, l.IsOrdinary := by
  induction h with
  | operand h =>
    intro l hl
    cases h <;> (obtain rfl := List.mem_singleton.1 hl; trivial)
  | negate type h ih =>
    have none : UnaryOp.negate.leaves = [] := rfl
    rw [leaves, none, List.append_nil]
    exact ih
  | binary type arithmetic hl hr ihl ihr =>
    rw [leaves, List.forall_mem_append]
    exact ⟨ihl, ihr⟩

theorem valueOf_text (hd : d.BuiltIn) (h : e.IsArithmetic) (env : Environment) (n : Nat) :
    d.valueOf env (String.join (d.texts n (e.tokens d o))) =
      (e.readingBy .attach d o n).value env := by
  have spells : ∀ op (right : Expr), op.isArithmetic = true → d.Spells op := by
    intro op right arithmetic concat
    rw [concat] at arithmetic
    cases arithmetic
  rw [Dialect.valueOf, h.isReadable.read hd spells h.faults_nil (h.isOrdinary_leaves _)]

end IsArithmetic

end Expr

end SelectCompiler
