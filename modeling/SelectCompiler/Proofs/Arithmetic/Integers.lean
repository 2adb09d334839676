import SelectCompiler.Proofs.Arithmetic.Values

/-!
What the operators do to integers: right operands that change nothing, and left operands that keep
right operands apart.
-/

namespace SelectCompiler

/-- Numbers whose distance from zero differs by the margin, and is not below it. -/
def IsApart (margin : Nat) (t s : Int) : Prop :=
  margin ≤ t.natAbs ∧ margin ≤ s.natAbs ∧
    (margin + t.natAbs ≤ s.natAbs ∨ margin + s.natAbs ≤ t.natAbs)

namespace BinaryOp

/-- A right operand that leaves both of the left operands as they are. -/
def neutral : BinaryOp → Int → Int → Int
  | multiply, _, _ | divide, _, _ => 1
  | modulo, t, s => t.natAbs + s.natAbs + 1
  | _, _, _ => 0

theorem apply_neutral {op : BinaryOp} (arithmetic : op.isArithmetic = true) (t s : Int) :
    op.apply t (op.neutral t s) = .ok t ∧ op.apply s (op.neutral t s) = .ok s := by
  have small {k : Int} (le : k.natAbs ≤ t.natAbs + s.natAbs) :
      k.tmod (t.natAbs + s.natAbs + 1) = k := by
    rcases Int.le_total 0 k with nonneg | nonpos
    · exact Int.tmod_eq_of_lt nonneg (by omega)
    · have opposite := Int.tmod_eq_of_lt (a := -k) (b := t.natAbs + s.natAbs + 1)
        (by omega) (by omega)
      rw [Int.neg_tmod] at opposite
      omega
  cases op with
  | add => simp [apply, neutral]
  | subtract => simp [apply, neutral]
  | multiply => simp [apply, neutral]
  | divide => simp [apply, neutral]
  | modulo =>
    have ne : (t.natAbs + s.natAbs + 1 : Int) ≠ 0 := by omega
    rw [neutral, apply_modulo t ne, apply_modulo s ne, small (by omega), small (by omega)]
    exact ⟨rfl, rfl⟩
  | _ => cases arithmetic

theorem exists_apply_isApart {op : BinaryOp} (arithmetic : op.isArithmetic = true) {margin : Nat}
    {t s : Int} (h : IsApart (margin + 1) t s) :
    ∃ a v w, op.apply a t = .ok v ∧ op.apply a s = .ok w ∧ IsApart margin v w ∧
      (op = .multiply → a = 1) := by
  have apart := h
  unfold IsApart at apart
  have t0 : t ≠ 0 := by omega
  have s0 : s ≠ 0 := by omega
  cases op with
  | add =>
    refine ⟨0, _, _, rfl, rfl, ?_, nofun⟩
    unfold IsApart
    omega
  | subtract =>
    refine ⟨0, _, _, rfl, rfl, ?_, nofun⟩
    unfold IsApart
    omega
  | multiply =>
    refine ⟨1, _, _, rfl, rfl, ?_, fun _ => rfl⟩
    unfold IsApart
    omega
  | divide =>
    -- Each of the two divides their product and leaves the other.
    refine ⟨t * s, s, t, ?_, ?_, ?_, nofun⟩
    · rw [apply_divide _ t0, Int.mul_tdiv_cancel_left s t0]
    · rw [apply_divide _ s0, Int.mul_tdiv_cancel t s0]
    · unfold IsApart
      omega
  | modulo =>
    have remainders (a : Nat) : ∃ v w, modulo.apply a t = .ok v ∧ modulo.apply a s = .ok w ∧
        v.natAbs = a % t.natAbs ∧ w.natAbs = a % s.natAbs :=
      ⟨_, _, apply_modulo _ t0, apply_modulo _ s0, Int.natAbs_tmod a t, Int.natAbs_tmod a s⟩
    -- A little more than the smaller one wraps around there, and not at the larger one.
    rcases apart.2.2 with less | less
    · obtain ⟨v, w, hv, hw, abs, abs'⟩ := remainders (t.natAbs + margin)
      rw [Nat.add_mod_left, Nat.mod_eq_of_lt (by omega)] at abs
      rw [Nat.mod_eq_of_lt (by omega)] at abs'
      refine ⟨_, v, w, hv, hw, ?_, nofun⟩
      unfold IsApart
      omega
    · obtain ⟨v, w, hv, hw, abs, abs'⟩ := remainders (s.natAbs + margin)
      rw [Nat.mod_eq_of_lt (by omega)] at abs
      rw [Nat.add_mod_left, Nat.mod_eq_of_lt (by omega)] at abs'
      refine ⟨_, v, w, hv, hw, ?_, nofun⟩
      unfold IsApart
      omega
  | _ => cases arithmetic

/-- Factors that a quotient or a remainder cannot be multiplied with afterwards. -/
theorem exists_factor_isApart {op : BinaryOp} (quotient : op = divide ∨ op = modulo)
    (margin : Nat) :
    ∃ a l r t s, op.apply l r = .ok t ∧ op.apply (a * l) r = .ok s ∧ IsApart margin (a * t) s := by
  rcases quotient with rfl | rfl
  · refine ⟨2 * margin, 3, 2, 1, 3 * margin, rfl, ?_, ?_⟩
    · have double : (2 * margin * 3 : Int) = 3 * margin * 2 := by omega
      rw [apply_divide _ (by decide), double, Int.mul_tdiv_cancel _ (by decide)]
    · unfold IsApart
      omega
  · refine ⟨2, margin + 1, margin + 2, margin + 1, margin, ?_, ?_, ?_⟩
    · rw [apply_modulo _ (by omega), Int.tmod_eq_of_lt (by omega) (by omega)]
    · have sum : (2 * (margin + 1) : Int) = margin + (margin + 2) := by omega
      rw [apply_modulo _ (by omega), Int.tmod_eq_emod_of_nonneg (by omega), sum,
        Int.add_emod_right, Int.emod_eq_of_lt (by omega) (by omega)]
    · unfold IsApart
      omega

end BinaryOp

end SelectCompiler
