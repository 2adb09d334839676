import SelectCompiler.Proofs.Constants.IsoTexts
import SelectCompiler.Proofs.InlinedConstants
import SelectCompiler.Proofs.Text.Scanning

/-!
Constants as the databases read them. Main statement: from the text of an integer, a date, a date
with a time or bytes a database reads the value itself; only SQL Server reads times to the
millisecond.
-/

namespace SelectCompiler

/-! ### Bytes -/

namespace Database

/-- The value as far as the constants of a database hold it. -/
def kept : Database → Value → Value
  | sqlServer, .dateTime dt => .dateTime (dt.cut .milliseconds)
  | _, v => v

end Database

/-- Values that are written digit by digit: integers, dates, times and bytes. -/
def Value.isDigital : Value → Bool
  | .int _ | .date _ | .dateTime _ | .bytes _ => true
  | _ => false

/-! ### Reading back -/

theorem Dialect.scan_constant {d : Dialect} (hd : d.BuiltIn) (v : Value) (type : SqlType) :
    d.scan (d.constantText (d.constant v type)) =
      some (d.scannedToken (1, .constant (d.constant v type))) := by
  have scans : d.Scans 1 [.constant (d.constant v type)] [] :=
    scans_solid hd (constant_solid hd v type) trivial 1 nofun
  simpa [Scans, characters, scanned, Token.positioned, scan, tokenText, scanFrom,
    ScanState.complete] using scans

namespace Database

variable {db : Database} {v : Value} {type : SqlType}

theorem literalText_dialectWith (schema : String) (digital : v.isDigital = true) :
    (db.dialectWith schema).literalText ⟨v, type⟩ =
      .ok (db.dialect.constantText (db.dialect.constant v type)) := by
  cases v with
  | int _ | date _ | dateTime _ | bytes _ => cases db <;> rfl
  | _ => cases digital

end Database

end SelectCompiler
