import SelectCompiler.Proofs.Reader.TreeReading

/-!
Arithmetic: what trees and what readings are worth over the integers. Quotients are truncated, and
whoever divides by zero fails.
-/

namespace SelectCompiler

inductive Failure where
  | divisionByZero
  /-- There is no value in anything but arithmetic. -/
  | unknown

abbrev Environment := (table : Option String) → (name : String) → Int

namespace BinaryOp

def isArithmetic : BinaryOp → Bool
  | add | subtract | multiply | divide | modulo => true
  | _ => false

def apply : BinaryOp → Int → Int → Except Failure Int
  | add, a, b => .ok (a + b)
  | subtract, a, b => .ok (a - b)
  | multiply, a, b => .ok (a * b)
  | divide, a, b => if b = 0 then .error .divisionByZero else .ok (a.tdiv b)
  | modulo, a, b => if b = 0 then .error .divisionByZero else .ok (a.tmod b)
  | _, _, _ => .error .unknown

def eval (op : BinaryOp) (x y : Except Failure Int) : Except Failure Int := do
  let a ← x
  let b ← y
  op.apply a b

end BinaryOp

def Expr.value (env : Environment) : Expr → Except Failure Int
  | .column c => .ok (env (givenName c.table) c.name)
  | .literal ⟨.int n, _⟩ => .ok n.toInt
  | .unary .negate operand _ => (operand.value env).map (- ·)
  | .binary left op right _ => op.eval (left.value env) (right.value env)
  | _ => .error .unknown

def Reading.value (env : Environment) : Reading → Except Failure Int
  | .atom [.name name] => .ok (env none name)
  | .atom [.name table, .dot, .name name] => .ok (env (some table) name)
  | .atom [.word digits] =>
    if digits.toList.all Char.isDigit then .ok (digitsValue digits.toList) else .error .unknown
  | .negate operand => (operand.value env).map (- ·)
  | .binary left op right => op.eval (left.value env) (right.value env)
  | _ => .error .unknown

def Dialect.valueOf (d : Dialect) (env : Environment) (text : String) : Except Failure Int :=
  match d.read text with
  | some r => r.value env
  | none => .error .unknown

/-! ### Operators -/

namespace BinaryOp

@[simp] theorem eval_ok (op : BinaryOp) (m n : Int) : op.eval (.ok m) (.ok n) = op.apply m n := rfl

theorem apply_divide (m : Int) {n : Int} (ne : n ≠ 0) : divide.apply m n = .ok (m.tdiv n) :=
  if_neg ne

theorem apply_modulo (m : Int) {n : Int} (ne : n ≠ 0) : modulo.apply m n = .ok (m.tmod n) :=
  if_neg ne

theorem eq_of_isAssociative (op : BinaryOp) (arithmetic : op.isArithmetic = true)
    (associative : op.isAssociative = true) : op = .add ∨ op = .multiply := by
  cases op with
  | add => exact .inl rfl
  | multiply => exact .inr rfl
  | subtract => cases associative
  | divide => cases associative
  | modulo => cases associative
  | _ => cases arithmetic

/-- Where the first of two operators may as well be applied first. -/
def regroups : BinaryOp → BinaryOp → Bool
  | add, add | add, subtract | multiply, multiply => true
  | _, _ => false

theorem eval_regroup {a b : BinaryOp} (h : a.regroups b = true) (x y z : Except Failure Int) :
    a.eval x (b.eval y z) = b.eval (a.eval x y) z := by
  have integers : ∀ l m n, a.eval (.ok l) (b.apply m n) = b.eval (a.apply l m) (.ok n) := by
    intro l m n
    unfold regroups at h
    split at h
    · exact congrArg Except.ok (Int.add_assoc l m n).symm
    · exact congrArg Except.ok (Int.add_sub_assoc l m n).symm
    · exact congrArg Except.ok (Int.mul_assoc l m n).symm
    · cases h
  have total : ∀ l m, ∃ v, a.apply l m = .ok v := by
    intro l m
    cases a with
    | add => exact ⟨_, rfl⟩
    | multiply => exact ⟨_, rfl⟩
    | _ => cases h
  cases x with
  | error failure => rfl
  | ok l =>
    cases y with
    | error failure => rfl
    | ok m =>
      cases z with
      | ok n => exact integers l m n
      | error failure =>
        obtain ⟨v, eq⟩ := total l m
        rw [eval_ok, eq]
        rfl

end BinaryOp

/-! ### Operands -/

namespace Reading

variable {env : Environment}

theorem value_number (n : Nat) :
    (atom [.word (String.ofList (decimalDigits n))]).value env = .ok n := by
  have digits : (decimalDigits n).all Char.isDigit = true :=
    List.all_eq_true.2 fun c hc => isDigit_of_mem_decimalDigits hc
  rw [value, String.toList_ofList, if_pos digits, digitsValue_decimalDigits]

/-- The sign of a negative number is read as an operator. -/
theorem value_constant (k : Int) :
    (constant (lexemesOf ((toString k).toList.map .plain))).value env = .ok k := by
  have digits (n : Nat) :=
    lexemesOf_number (isMantissa_decimalDigits n).isNumber
  cases k with
  | ofNat n =>
    rw [Int.ofNat_eq_natCast, toList_toString_natCast, digits]
    exact value_number n
  | negSucc n =>
    have unsigned : IsUnsigned (decimalDigits (n + 1)) :=
      .inr (isMantissa_decimalDigits (n + 1)).isNumber
    rw [toList_toString_negSucc, Dialect.lexemesOf_signed unsigned, digits]
    rw [constant, value, value_number]
    rfl

theorem value_graft_add (x y : Reading) :
    (graft .add x y).value env = BinaryOp.add.eval (x.value env) (y.value env) := by
  induction y using graft.induct .add with
  | case1 l inner r runs ih =>
    have regroups : BinaryOp.add.regroups inner = true := by
      cases inner <;> first | rfl | cases runs
    rw [graft, if_pos runs, value, ih, value, BinaryOp.eval_regroup regroups]
  | case2 l inner r stops => rw [graft, if_neg stops, value]
  | case3 y other => rw [graft_of_not (fun l inner r eq => absurd eq (other l inner r)), value]

theorem value_graft_one {x : Reading} (one : x.value env = .ok 1) (y : Reading) :
    (graft .multiply x y).value env = y.value env := by
  have single (y : Reading) : (binary x .multiply y).value env = y.value env := by
    rw [value, one]
    cases y.value env with
    | error failure => rfl
    | ok k => exact congrArg Except.ok (Int.one_mul k)
  induction y using graft.induct .multiply with
  | case1 l inner r runs ih => rw [graft, if_pos runs, value, ih, value]
  | case2 l inner r stops => rw [graft, if_neg stops, single]
  | case3 y other => rw [graft_of_not (fun l inner r eq => absurd eq (other l inner r)), single]

end Reading

variable {d : Dialect} {o : Options}

theorem Expr.value_column_reading (env : Environment) (c : Column) (n : Nat) :
    ((Expr.column c).readingBy .attach d o n).value env = (Expr.column c).value env := by
  rw [readingBy, tokens, value]
  cases givenName c.table with
  | none => simp [Token.qualified, Reading.value]
  | some table => simp [Token.qualified, Reading.value]

theorem Expr.value_number_reading (inline : o.bindLiterals = false) (env : Environment)
    (k : Int64) (type : SqlType) (n : Nat) :
    ((Expr.literal ⟨.int k, type⟩).readingBy .attach d o n).value env = .ok k.toInt := by
  have token : d.literalToken o ⟨.int k, type⟩ = .constant (.bare (toString k.toInt)) := by
    rw [Dialect.literalToken, inline, if_neg Bool.false_ne_true]
    rfl
  rw [readingBy, token, Dialect.lexemes_singleton]
  exact Reading.value_constant k.toInt

end SelectCompiler
