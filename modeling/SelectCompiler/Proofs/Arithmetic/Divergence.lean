import SelectCompiler.Proofs.Arithmetic.Faithful
import SelectCompiler.Proofs.Arithmetic.Integers

/-!
Texts that lose their values. Main statement: if a multiplication does not leave the quotients to
its right alone, then for some operands the text is worth something else than the tree.
-/

namespace SelectCompiler

open Token (after)

/-- Columns that are named after their values. -/
def namedValues : Environment := fun _ name =>
  match name.toList with
  | '-' :: digits => -digitsValue digits
  | digits => digitsValue digits

theorem namedValues_toString (table : Option String) (k : Int) :
    namedValues table (toString k) = k := by
  unfold namedValues
  cases k with
  | ofNat n =>
    rw [Int.ofNat_eq_natCast, toList_toString_natCast]
    split
    · rename_i digits eq
      have minus : '-' ∈ decimalDigits n := by simp [eq]
      exact absurd (isDigit_of_mem_decimalDigits minus) (by decide)
    · rw [digitsValue_decimalDigits]
  | negSucc n =>
    rw [toList_toString_negSucc]
    show -(digitsValue (decimalDigits (n + 1)) : Int) = Int.negSucc n
    rw [digitsValue_decimalDigits]
    omega

variable {d : Dialect} {o : Options}

namespace Expr

/-! ### Values of trees and of texts -/

/-- The tree is worth `t` and its text is worth `s`. -/
structure Gives (d : Dialect) (o : Options) (e : Expr) (t s : Int) : Prop where
  tree : e.value namedValues = .ok t
  text : ∀ n, (e.readingBy .attach d o n).value namedValues = .ok s

/-- The tree is worth `t`, and what it makes of the text of something worth `a` is worth `s`. -/
structure GivesBehind (d : Dialect) (o : Options) (join : Reading → Reading → Reading) (a : Int)
    (e : Expr) (t s : Int) : Prop where
  tree : e.value namedValues = .ok t
  text : ∀ x n, x.value namedValues = .ok a →
    (join x (e.readingBy .attach d o n)).value namedValues = .ok s

variable {e left right : Expr} {op : BinaryOp} {a t s t' s' v w : Int}

namespace Gives

theorem negate (h : e.Gives d o t s) (type : SqlType) :
    (Expr.unary .negate e type).Gives d o (-t) (-s) where
  tree := by
    rw [value, h.tree]
    rfl
  text n := by
    rw [readingBy, Reading.value, h.text]
    rfl

/-- A one that is no product leaves products in front of it as they are. -/
theorem passes (h : e.Gives d o 1 1) (stops : e.continues d .multiply = false) (a : Int) :
    e.GivesBehind d o (.graft .multiply) a 1 a where
  tree := h.tree
  text x n hx := by
    rw [graft_reading stops, Reading.value, hx, h.text]
    exact congrArg Except.ok (Int.mul_one a)

/-- But for products behind a multiplication, right operands are worth the same wherever they
stand. -/
theorem attached (h : e.Gives d o t s) (arithmetic : op.isArithmetic = true)
    (other : ¬(op = .multiply ∧ e.isBinary .multiply = true)) (eq : op.apply a s = .ok v) :
    e.GivesBehind d o (.attach op) a t v where
  tree := h.tree
  text x n hx := by
    rw [value_attach_reading arithmetic other, hx, h.text, BinaryOp.eval_ok, eq]

theorem attached_one (h : e.Gives d o t s) : e.GivesBehind d o (.attach .multiply) 1 t s where
  tree := h.tree
  text x n hx := by
    rw [Reading.attach]
    split
    · rw [Reading.value_graft_one hx, h.text]
    · rw [Reading.value, hx, h.text]
      exact congrArg Except.ok (Int.one_mul s)

end Gives

namespace GivesBehind

theorem attached (h : e.GivesBehind d o (.graft .multiply) a t s)
    (chain : e.isBinary .multiply = true) : e.GivesBehind d o (.attach .multiply) a t s where
  tree := h.tree
  text x n hx := by
    rw [Reading.attach, isBinary_reading rfl, chain]
    exact h.text x n hx

theorem binary (hl : left.GivesBehind d o (.graft .multiply) a t s)
    (hr : right.GivesBehind d o (.attach op) s t' s') (arithmetic : op.isArithmetic = true)
    (runs : BinaryOp.multiply.runsOn op = true) (eq : op.apply t t' = .ok v) (type : SqlType) :
    (Expr.binary left op right type).GivesBehind d o (.graft .multiply) a v s' where
  tree := by rw [value, hl.tree, hr.tree, BinaryOp.eval_ok, eq]
  text x n hx := by
    rw [binary_reading arithmetic, Reading.graft_attach runs]
    exact hr.text _ _ (hl.text x n hx)

end GivesBehind

theorem Gives.binary (hl : left.Gives d o t s) (hr : right.GivesBehind d o (.attach op) s t' s')
    (arithmetic : op.isArithmetic = true) (eq : op.apply t t' = .ok v) (type : SqlType) :
    (Expr.binary left op right type).Gives d o v s' where
  tree := by rw [value, hl.tree, hr.tree, BinaryOp.eval_ok, eq]
  text n := by
    rw [binary_reading arithmetic]
    exact hr.text _ _ (hl.text n)

/-! ### Operands of any value -/

def namedAfter (k : Int) : Expr := .column ⟨toString k, none, .int, false⟩

theorem gives_namedAfter (k : Int) : (namedAfter k).Gives d o k k := by
  have tree : (namedAfter k).value namedValues = .ok k := by
    rw [namedAfter, value, namedValues_toString]
  exact ⟨tree, fun n => (value_column_reading _ _ n).trans tree⟩

/-- Operands can be chosen such that tree and text have any value, and such that the tree is worth
one while its text leaves any product in front of it as it is. -/
structure IsAdaptable (d : Dialect) (o : Options) (e : Expr) : Prop where
  gives : ∀ v, ∃ e', e.SameShape e' ∧ e'.Gives d o v v
  passes : ∀ a, ∃ e', e.SameShape e' ∧ e'.GivesBehind d o (.graft .multiply) a 1 a

namespace IsAdaptable

/-- As a right operand the expression can be made to leave two left operands as they are, one in the
tree and one in the text. -/
theorem neutral (h : e.IsAdaptable d o) (arithmetic : op.isArithmetic = true) (t s : Int) :
    ∃ e' u, e.SameShape e' ∧ op.apply t u = .ok t ∧ e'.GivesBehind d o (.attach op) s u s := by
  -- Only a product behind a multiplication is taken apart by what stands in front of it.
  by_cases chain : op = .multiply ∧ e.isBinary .multiply = true
  · obtain ⟨rfl, product⟩ := chain
    obtain ⟨e', same, passes⟩ := h.passes s
    refine ⟨e', 1, same, ?_, passes.attached (by rw [same.isBinary, product])⟩
    exact congrArg Except.ok (Int.mul_one t)
  · obtain ⟨e', same, gives⟩ := h.gives (op.neutral t s)
    obtain ⟨left, right⟩ := BinaryOp.apply_neutral arithmetic t s
    exact ⟨e', _, same, left, gives.attached arithmetic (by rwa [same.isBinary]) right⟩

theorem operand (h : e.IsOperand) : e.IsAdaptable d o where
  gives v := ⟨namedAfter v, .operand h (.column _), gives_namedAfter v⟩
  passes a := ⟨namedAfter 1, .operand h (.column _), (gives_namedAfter 1).passes rfl a⟩

theorem negate (h : e.IsAdaptable d o) (type : SqlType) :
    (Expr.unary .negate e type).IsAdaptable d o := by
  have gives (v : Int) : ∃ e', e.SameShape e' ∧
      (Expr.unary .negate e' type).Gives d o v v := by
    obtain ⟨e', same, opposite⟩ := h.gives (-v)
    have negated := opposite.negate type
    rw [Int.neg_neg] at negated
    exact ⟨e', same, negated⟩
  refine ⟨fun v => ?_, fun a => ?_⟩
  · obtain ⟨e', same, negated⟩ := gives v
    exact ⟨_, .negate type type same, negated⟩
  · obtain ⟨e', same, negated⟩ := gives 1
    exact ⟨_, .negate type type same, negated.passes rfl a⟩

theorem binary (hl : left.IsAdaptable d o) (hr : right.IsAdaptable d o)
    (arithmetic : op.isArithmetic = true) (type : SqlType) :
    (Expr.binary left op right type).IsAdaptable d o := by
  have gives (v : Int) : ∃ l' r', left.SameShape l' ∧ right.SameShape r' ∧
      (Expr.binary l' op r' type).Gives d o v v := by
    obtain ⟨l', sameLeft, first⟩ := hl.gives v
    obtain ⟨r', u, sameRight, eq, second⟩ := hr.neutral arithmetic v v
    exact ⟨l', r', sameLeft, sameRight, first.binary second arithmetic eq type⟩
  refine ⟨fun v => ?_, fun a => ?_⟩
  · obtain ⟨l', r', sameLeft, sameRight, whole⟩ := gives v
    exact ⟨_, .binary type type arithmetic sameLeft sameRight, whole⟩
  · cases runs : BinaryOp.multiply.runsOn op with
    | true =>
      obtain ⟨l', sameLeft, first⟩ := hl.passes a
      obtain ⟨r', u, sameRight, eq, second⟩ := hr.neutral arithmetic 1 a
      exact ⟨_, .binary type type arithmetic sameLeft sameRight,
        first.binary second arithmetic runs eq type⟩
    | false =>
      obtain ⟨l', r', sameLeft, sameRight, whole⟩ := gives 1
      have stops : (Expr.binary l' op r' type).continues d .multiply = false := by
        simp [continues, runs]
      exact ⟨_, .binary type type arithmetic sameLeft sameRight, whole.passes stops a⟩

end IsAdaptable

theorem IsArithmetic.isAdaptable (d : Dialect) (o : Options) (h : e.IsArithmetic) :
    e.IsAdaptable d o := by
  induction h with
  | operand h => exact .operand h
  | negate type h ih => exact ih.negate type
  | binary type arithmetic hl hr ihl ihr => exact ihl.binary ihr arithmetic type

/-! ### Divergence -/

/-- A product that does not divide first is multiplied by what stands in front of it. -/
theorem IsArithmetic.exists_givesBehind_mul (d : Dialect) (inline : o.bindLiterals = false)
    (h : e.IsArithmetic) (keeps : e.keepsQuotients = true) (first : e.dividesFirst = false)
    (a v : Int) : ∃ e', e.SameShape e' ∧ e'.GivesBehind d o (.graft .multiply) a v (a * v) := by
  obtain ⟨e', same, gives⟩ := (h.isAdaptable d o).gives v
  have faithful : e'.IsFaithful d o namedValues :=
    same.isArithmetic.isFaithful inline (by rw [same.keepsQuotients, keeps])
  refine ⟨e', same, gives.tree, fun x n hx => ?_⟩
  rw [faithful.behind (by rw [same.dividesFirst, first]), hx, gives.tree]
  rfl

/-- A product that divides first can be made to depend on what stands in front of it. -/
theorem IsArithmetic.exists_givesBehind (d : Dialect) (inline : o.bindLiterals = false)
    (h : e.IsArithmetic) (keeps : e.keepsQuotients = true) (first : e.dividesFirst = true)
    (margin : Nat) :
    ∃ e' a t s, e.SameShape e' ∧ e'.GivesBehind d o (.graft .multiply) a t s ∧
      IsApart margin (a * t) s := by
  induction h with
  | operand h => simp [h.dividesFirst] at first
  | negate type h ih => cases first
  | @binary left op right type arithmetic hl hr ihl ihr =>
    simp only [keepsQuotients, Bool.and_eq_true] at keeps
    have runs : BinaryOp.multiply.runsOn op = true := by
      cases op <;> first | rfl | cases first
    cases inner : left.dividesFirst with
    | true =>
      obtain ⟨l', a, t, s, sameLeft, behind, apart⟩ := ihl keeps.1.1 inner
      obtain ⟨r', u, sameRight, eq, second⟩ := (hr.isAdaptable d o).neutral arithmetic t s
      exact ⟨_, a, t, s, .binary type type arithmetic sameLeft sameRight,
        behind.binary second arithmetic runs eq type, apart⟩
    | false =>
      have quotient : op = .divide ∨ op = .modulo := by
        cases op with
        | divide => exact .inl rfl
        | modulo => exact .inr rfl
        | multiply => simp [dividesFirst, inner] at first
        | _ => cases first
      obtain ⟨a, l, r, t, s, tree, text, apart⟩ :=
        BinaryOp.exists_factor_isApart quotient margin
      obtain ⟨l', sameLeft, behind⟩ := hl.exists_givesBehind_mul d inline keeps.1.1 inner a l
      obtain ⟨r', sameRight, gives⟩ := (hr.isAdaptable d o).gives r
      have second := gives.attached arithmetic
        (by rcases quotient with rfl | rfl <;> simp) text
      exact ⟨_, a, t, s, .binary type type arithmetic sameLeft sameRight,
        behind.binary second arithmetic runs tree type, apart⟩

/-- Somewhere a multiplication loses a quotient, and all operators above it can be made to let the
difference through. -/
theorem IsArithmetic.exists_gives (d : Dialect) (inline : o.bindLiterals = false)
    (h : e.IsArithmetic) (loses : e.keepsQuotients = false) (margin : Nat) :
    ∃ e' t s, e.SameShape e' ∧ e'.Gives d o t s ∧ IsApart margin t s := by
  induction h generalizing margin with
  | operand h => simp [h.keepsQuotients] at loses
  | negate type h ih =>
    obtain ⟨e', t, s, same, gives, apart⟩ := ih loses margin
    refine ⟨_, -t, -s, .negate type type same, gives.negate type, ?_⟩
    unfold IsApart at apart ⊢
    omega
  | @binary left op right type arithmetic hl hr ihl ihr =>
    cases keepsLeft : left.keepsQuotients with
    | false =>
      obtain ⟨l', t, s, sameLeft, gives, apart⟩ := ihl keepsLeft margin
      -- The right operand is chosen after the left one, for both of its values at once.
      obtain ⟨r', u, sameRight, eq, second⟩ := (hr.isAdaptable d o).neutral arithmetic t s
      exact ⟨_, t, s, .binary type type arithmetic sameLeft sameRight,
        gives.binary second arithmetic eq type, apart⟩
    | true =>
      cases keepsRight : right.keepsQuotients with
      | false =>
        -- A quotient or a remainder needs operands that are farther apart than its results.
        obtain ⟨r', t, s, sameRight, gives, apart⟩ := ihr keepsRight (margin + 1)
        obtain ⟨a, v, w, tree, text, apart', one⟩ :=
          BinaryOp.exists_apply_isApart arithmetic apart
        obtain ⟨l', sameLeft, first⟩ := (hl.isAdaptable d o).gives a
        have second : r'.GivesBehind d o (.attach op) a t w := by
          by_cases product : op = .multiply
          · subst product
            obtain rfl := one rfl
            obtain rfl : s = w := by simpa [BinaryOp.apply] using text
            exact gives.attached_one
          · exact gives.attached arithmetic (fun chain => product chain.1) text
        exact ⟨_, v, w, .binary type type arithmetic sameLeft sameRight,
          first.binary second arithmetic tree type, apart'⟩
      | true =>
        have lost : losesQuotient op right = true := by
          simpa [keepsQuotients, keepsLeft, keepsRight] using loses
        simp only [losesQuotient, Bool.and_eq_true, beq_iff_eq] at lost
        obtain ⟨⟨rfl, product⟩, divides⟩ := lost
        obtain ⟨r', a, t, s, sameRight, behind, apart⟩ :=
          hr.exists_givesBehind d inline keepsRight divides margin
        obtain ⟨l', sameLeft, first⟩ := (hl.isAdaptable d o).gives a
        have second := behind.attached (by rw [sameRight.isBinary, product])
        exact ⟨_, a * t, s, .binary type type arithmetic sameLeft sameRight,
          first.binary second arithmetic rfl type, apart⟩

end Expr

end SelectCompiler
