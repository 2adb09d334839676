import SelectCompiler.Proofs.Arithmetic.Shapes

/-!
Texts that keep their values. Main statement: arithmetic in which every multiplication leaves the
quotients to its right alone has the value of its text.
-/

namespace SelectCompiler

open Token (after)

variable {d : Dialect} {o : Options} {env : Environment}

namespace Expr

/-- The text has the value of the tree, also as a part of a longer product. -/
structure IsFaithful (d : Dialect) (o : Options) (env : Environment) (e : Expr) : Prop where
  value : ∀ n, (e.readingBy .attach d o n).value env = e.value env
  behind : e.dividesFirst = false → ∀ x n,
    (Reading.graft .multiply x (e.readingBy .attach d o n)).value env =
      BinaryOp.multiply.eval (x.value env) (e.value env)

/-- But for a product behind a multiplication, the text of a right operand keeps its value wherever
it stands: sums may be regrouped. -/
theorem value_attach_reading {e : Expr} {op : BinaryOp} (arithmetic : op.isArithmetic = true)
    (other : ¬(op = .multiply ∧ e.isBinary .multiply = true)) (x : Reading) (n : Nat) :
    (Reading.attach op x (e.readingBy .attach d o n)).value env =
      op.eval (x.value env) ((e.readingBy .attach d o n).value env) := by
  rw [Reading.attach, isBinary_reading (calls_of_isArithmetic arithmetic)]
  split
  · next chain =>
    rw [Bool.and_eq_true] at chain
    rcases op.eq_of_isAssociative arithmetic chain.1 with rfl | rfl
    · exact Reading.value_graft_add x _
    · exact absurd ⟨rfl, chain.2⟩ other
  · rw [Reading.value]

namespace IsFaithful

variable {e : Expr}

/-- Whatever is no product stands behind a multiplication as a whole. -/
theorem of_value (value : ∀ n, (e.readingBy .attach d o n).value env = e.value env)
    (stops : e.continues d .multiply = false) : e.IsFaithful d o env where
  value := value
  behind _ x n := by rw [graft_reading stops, Reading.value, value]

theorem value_attach (h : e.IsFaithful d o env) {op : BinaryOp}
    (arithmetic : op.isArithmetic = true) (keeps : losesQuotient op e = false) (x : Reading)
    (n : Nat) :
    (Reading.attach op x (e.readingBy .attach d o n)).value env =
      op.eval (x.value env) (e.value env) := by
  by_cases product : op = .multiply ∧ e.isBinary .multiply = true
  · obtain ⟨rfl, chain⟩ := product
    have first : e.dividesFirst = false := by simpa [losesQuotient, chain] using keeps
    rw [Reading.attach, isBinary_reading rfl, chain]
    exact h.behind first x n
  · rw [value_attach_reading arithmetic product, h.value]

theorem operand (inline : o.bindLiterals = false) (h : e.IsOperand) : e.IsFaithful d o env := by
  cases h with
  | column c => exact .of_value (value_column_reading env c) rfl
  | number k type => exact .of_value (value_number_reading inline env k type) rfl

theorem negate (h : e.IsFaithful d o env) (type : SqlType) :
    (Expr.unary .negate e type).IsFaithful d o env := by
  refine .of_value (fun n => ?_) rfl
  rw [readingBy, Reading.value, Expr.value, h.value]

theorem binary {left right : Expr} {op : BinaryOp} (arithmetic : op.isArithmetic = true)
    (keeps : losesQuotient op right = false) (hl : left.IsFaithful d o env)
    (hr : right.IsFaithful d o env) (type : SqlType) :
    (Expr.binary left op right type).IsFaithful d o env := by
  have value (n : Nat) : ((Expr.binary left op right type).readingBy .attach d o n).value env =
      (Expr.binary left op right type).value env := by
    rw [binary_reading arithmetic, hr.value_attach arithmetic keeps, hl.value, Expr.value]
  cases op with
  | multiply =>
    refine ⟨value, fun first x n => ?_⟩
    have runs := BinaryOp.multiply.runsOn_self
    rw [binary_reading arithmetic, Reading.graft_attach runs, hr.value_attach arithmetic keeps,
      hl.behind first, Expr.value, BinaryOp.eval_regroup rfl]
  | divide => exact ⟨value, fun first => by cases first⟩
  | modulo => exact ⟨value, fun first => by cases first⟩
  | _ => exact .of_value value rfl

end IsFaithful

theorem IsArithmetic.isFaithful (inline : o.bindLiterals = false) {e : Expr}
    (h : e.IsArithmetic) (keeps : e.keepsQuotients = true) : e.IsFaithful d o env := by
  induction h with
  | operand h => exact .operand inline h
  | negate type h ih => exact (ih keeps).negate type
  | binary type arithmetic hl hr ihl ihr =>
    simp only [keepsQuotients, Bool.and_eq_true, Bool.not_eq_true'] at keeps
    obtain ⟨⟨left, right⟩, kept⟩ := keeps
    exact .binary arithmetic kept (ihl left) (ihr right) type

/-- Arithmetic that keeps its quotients has the value of its text. -/
theorem IsArithmetic.valueOf_text_of_keepsQuotients (hd : d.BuiltIn)
    (inline : o.bindLiterals = false) {e : Expr} (h : e.IsArithmetic)
    (keeps : e.keepsQuotients = true) (env : Environment) (n : Nat) :
    d.valueOf env (String.join (d.texts n (e.tokens d o))) = e.value env := by
  have faithful : e.IsFaithful d o env := h.isFaithful inline keeps
  rw [h.valueOf_text hd, faithful.value]

end Expr

end SelectCompiler
