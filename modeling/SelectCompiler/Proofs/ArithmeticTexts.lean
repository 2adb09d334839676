import SelectCompiler.Proofs.Arithmetic.Divergence

/-!
The values of arithmetic. Main statement: the texts of a shape have the values of its trees if and
only if no product that divides first stands to the right of a multiplication.
-/

namespace SelectCompiler

variable {d : Dialect} {o : Options}

/-- Read from left to right, with products before sums, the texts of an arithmetic shape have the
values of its trees, failures included, if and only if the shape keeps its quotients. -/
theorem Expr.valueOf_text_eq_iff (hd : d.BuiltIn) (inline : o.bindLiterals = false) {e : Expr}
    (h : e.IsArithmetic) (n : Nat) :
    (∀ e', e.SameShape e' → ∀ env,
      d.valueOf env (String.join (d.texts n (e'.tokens d o))) = e'.value env) ↔
      e.keepsQuotients = true := by
  constructor
  · intro same
    by_cases keeps : e.keepsQuotients = true
    · exact keeps
    · obtain ⟨e', t, s, shape, gives, apart⟩ :=
        h.exists_gives d inline (by simpa using keeps) 1
      have read := same e' shape namedValues
      rw [shape.isArithmetic.valueOf_text hd, gives.text, gives.tree] at read
      obtain rfl := Except.ok.inj read
      unfold IsApart at apart
      omega
  · intro keeps e' shape env
    have keeps' : e'.keepsQuotients = true := by rw [shape.keepsQuotients, keeps]
    exact shape.isArithmetic.valueOf_text_of_keepsQuotients hd inline keeps' env n

/-- A product that divides first, behind a multiplication. -/
def dividedFactor : Expr :=
  let number (n : Int64) : Expr := .literal ⟨.int n, .int⟩
  .binary (number 2) .multiply
    (.binary (.binary (number 3) .divide (number 2) .int) .multiply (number 1) .int) .int

theorem valueOf_text_dividedFactor :
    String.join (Dialect.postgres.texts 1 (dividedFactor.tokens .postgres {})) =
      "2 * 3 / 2 * 1" ∧
    Dialect.postgres.valueOf (fun _ _ => 0) "2 * 3 / 2 * 1" = .ok 3 ∧
    dividedFactor.value (fun _ _ => 0) = .ok 2 ∧
    ¬∀ e', dividedFactor.SameShape e' → ∀ env,
      Dialect.postgres.valueOf env
        (String.join (Dialect.postgres.texts 1 (e'.tokens .postgres {}))) = e'.value env := by
  have arithmetic : dividedFactor.IsArithmetic := by
    have number (n : Int64) : (Expr.literal ⟨.int n, .int⟩).IsArithmetic :=
      .operand (.number n .int)
    exact .binary _ rfl (number 2)
      (.binary _ rfl (.binary _ rfl (number 3) (number 2)) (number 1))
  have loses : ¬dividedFactor.keepsQuotients = true := by decide
  refine ⟨by decide, rfl, rfl, ?_⟩
  rwa [Expr.valueOf_text_eq_iff .postgres rfl arithmetic 1]

end SelectCompiler
