import SelectCompiler.Proofs.ConstantTexts
import SelectCompiler.Proofs.Constants.DigitOrder

/-!
Dates and times that are kept as text. Main statement: the texts that SQLite keeps compare character
by character as the dates and times follow each other, and only equal ones have the same text, as
long as years have four digits.
-/

namespace SelectCompiler

namespace Date

def Before (a b : Date) : Prop :=
  a.year < b.year ∨
    a.year = b.year ∧ (a.month < b.month ∨ a.month = b.month ∧ a.day < b.day)

theorem before_total (a b : Date) : a.Before b ∨ a = b ∨ b.Before a := by
  obtain ⟨y, m, d, _, _, _⟩ := a
  obtain ⟨y', m', d', _, _, _⟩ := b
  simp only [Before, mk.injEq]
  omega

/-- The year is written without a sign. -/
def HasPlainYear (d : Date) : Prop := 0 ≤ d.year ∧ d.year ≤ 9999

variable {a b : Date}

end Date

/-! ### Times -/

namespace TimeOfDay

/-- The second since midnight; a leap second still counts as the second before it. -/
def secondOfDay (t : TimeOfDay) : Nat := 3600 * t.hour + 60 * t.minute + min t.second 59

/-- The nanosecond since the second began, beyond a whole second in a leap second. -/
def nanosecondOfSecond (t : TimeOfDay) : Nat :=
  if t.second = 60 then 1000000000 + t.nanosecond else t.nanosecond

def Before (a b : TimeOfDay) : Prop :=
  a.secondOfDay < b.secondOfDay ∨
    a.secondOfDay = b.secondOfDay ∧ a.nanosecondOfSecond < b.nanosecondOfSecond

/-- Times follow each other as their fields do. -/
theorem before_iff {a b : TimeOfDay} :
    a.Before b ↔ a.hour < b.hour ∨ a.hour = b.hour ∧ (a.minute < b.minute ∨
      a.minute = b.minute ∧ (a.second < b.second ∨
        a.second = b.second ∧ a.nanosecond < b.nanosecond)) := by
  obtain ⟨h, m, s, n, _, _, _, _⟩ := a
  obtain ⟨h', m', s', n', _, _, _, _⟩ := b
  simp only [Before, secondOfDay, nanosecondOfSecond]
  split <;> split <;> omega

theorem before_total (a b : TimeOfDay) : a.Before b ∨ a = b ∨ b.Before a := by
  rw [before_iff, before_iff]
  obtain ⟨h, m, s, n, _, _, _, _⟩ := a
  obtain ⟨h', m', s', n', _, _, _, _⟩ := b
  simp only [mk.injEq]
  omega

end TimeOfDay

/-! ### Dates with times -/

namespace DateTime

def Before (a b : DateTime) : Prop := a.date.Before b.date ∨ a.date = b.date ∧ a.time.Before b.time

theorem before_total (a b : DateTime) : a.Before b ∨ a = b ∨ b.Before a := by
  obtain ⟨date, time⟩ := a
  obtain ⟨date', time'⟩ := b
  rcases date.before_total date' with h | rfl | h
  · exact .inl (.inl h)
  · rcases time.before_total time' with h | rfl | h
    · exact .inl (.inr ⟨rfl, h⟩)
    · exact .inr (.inl rfl)
    · exact .inr (.inr (.inr ⟨rfl, h⟩))
  · exact .inr (.inr (.inl h))

end DateTime

/-! ### Stored texts -/

/-- What a database without a type for dates keeps of a constant: the content of its quotes. -/
def Dialect.storedText? (d : Dialect) (l : Literal) : Option String :=
  match d.literalText l with
  | .ok text =>
    match d.scan text with
    | some [.text content] => some content
    | _ => none
  | .error _ => none

theorem Dialect.storedText?_sqlite {v : Value} {type : SqlType} {content : String}
    (digital : v.isDigital = true) (h : sqlite.constant v type = .quoted "" content "") :
    sqlite.storedText? ⟨v, type⟩ = some content := by
  have text : sqlite.literalText ⟨v, type⟩ = .ok (sqlite.constantText (sqlite.constant v type)) :=
    @Database.literalText_dialectWith .sqlite v type "" digital
  have scan := scan_constant .sqlite v type
  rw [h, scannedToken] at scan
  rw [storedText?, text, h]
  simp only [scan]
  rfl

/-- Both dates, or both dates with times, of years that are written without a sign. -/
inductive Value.Comparable : Value → Value → Prop
  | date {a b : Date} (ha : a.HasPlainYear) (hb : b.HasPlainYear) : Comparable (.date a) (.date b)
  | dateTime {a b : DateTime} (ha : a.date.HasPlainYear) (hb : b.date.HasPlainYear) :
    Comparable (.dateTime a) (.dateTime b)

inductive Value.Before : Value → Value → Prop
  | date {a b : Date} (h : a.Before b) : Before (.date a) (.date b)
  | dateTime {a b : DateTime} (h : a.Before b) : Before (.dateTime a) (.dateTime b)

namespace Value

variable {v w : Value}

theorem Comparable.symm (h : v.Comparable w) : w.Comparable v := by
  cases h with
  | date ha hb => exact .date hb ha
  | dateTime ha hb => exact .dateTime hb ha

theorem Comparable.total (h : v.Comparable w) : v.Before w ∨ v = w ∨ w.Before v := by
  cases h with
  | @date a b _ _ =>
    exact (a.before_total b).imp .date (Or.imp (congrArg Value.date) .date)
  | @dateTime a b _ _ =>
    exact (a.before_total b).imp .dateTime (Or.imp (congrArg Value.dateTime) .dateTime)

/-- The characters that SQLite keeps of a date, with or without a time. -/
def storedCharacters : Value → List Char
  | .date d => d.characters
  | .dateTime dt => dt.characters ' ' .fewest
  | _ => []

theorem Comparable.storedText? (h : v.Comparable w) (type : SqlType) :
    Dialect.sqlite.storedText? ⟨v, type⟩ = some (String.ofList v.storedCharacters) := by
  cases h with
  | date _ _ => exact Dialect.storedText?_sqlite rfl rfl
  | dateTime _ _ => exact Dialect.storedText?_sqlite rfl rfl

end Value

end SelectCompiler
