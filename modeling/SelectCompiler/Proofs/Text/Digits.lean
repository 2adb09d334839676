import SelectCompiler.Text.Digits

/-!
Digits that are written and read back.
-/

namespace SelectCompiler

theorem isDigit_iff {c : Char} : c.isDigit = true ↔ 48 ≤ c.toNat ∧ c.toNat ≤ 57 := by
  show (decide (48 ≤ c.toNat) && decide (c.toNat ≤ 57)) = true ↔ _
  rw [Bool.and_eq_true, decide_eq_true_eq, decide_eq_true_eq]

theorem isDigit_of_mem_decimalDigits {n : Nat} {c : Char} (h : c ∈ decimalDigits n) :
    c.isDigit = true :=
  Nat.isDigit_of_mem_toDigits (by decide) (by decide) h

theorem digitsValue_decimalDigits (n : Nat) : digitsValue (decimalDigits n) = n := by
  have value := Nat.ofDigitChars_ten_toDigits (n := n)
  rwa [Nat.ofDigitChars_eq_foldl] at value

theorem digitChar_decimal {n : Nat} (h : n < 10) :
    (Nat.digitChar n).isDigit = true ∧ (Nat.digitChar n).toNat - '0'.toNat = n := by
  have all : ∀ n < 10, (Nat.digitChar n).isDigit = true ∧
      (Nat.digitChar n).toNat - '0'.toNat = n := by decide
  exact all n h

theorem isDigit_of_mem_fixedDigits {width n : Nat} {c : Char} (h : c ∈ fixedDigits width n) :
    c.isDigit = true := by
  induction width generalizing n with
  | zero => cases h
  | succ width ih =>
    rcases List.mem_append.1 h with h | h
    · exact ih h
    · rw [List.mem_singleton.1 h]
      exact (digitChar_decimal (Nat.mod_lt n (by decide))).1

/-- One more digit, whose value counts as it is. -/
theorem digitsValue_fixedDigits_succ (width n : Nat) :
    digitsValue (fixedDigits (width + 1) n) =
      10 * digitsValue (fixedDigits width (n / 10)) + n % 10 := by
  rw [fixedDigits, digitsValue, List.foldl_append, ← digitsValue, List.foldl_cons, List.foldl_nil,
    (digitChar_decimal (Nat.mod_lt n (by decide))).2]

end SelectCompiler
