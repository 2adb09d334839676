import Mathlib.Data.List.TakeDrop
import Mathlib.Data.List.TakeWhile
import SelectCompiler.Calendar.DateTime
import SelectCompiler.Proofs.Text.Digits

/-!
Dates and times as texts. Main statement: a date, and a date with a time, is read back from its text,
whatever its year and the fraction of its second.
-/

namespace SelectCompiler

theorem not_isBlank_of_isDigit {c : Char} (h : c.isDigit = true) : isBlank c = false := by
  rw [isDigit_iff] at h
  simp only [isBlank, Bool.or_eq_false_iff, Bool.and_eq_false_iff, decide_eq_false_iff_not,
    beq_eq_false_iff_ne]
  omega

theorem trimStart_cons {c : Char} (h : isBlank c = false) (cs : List Char) :
    trimStart (c :: cs) = c :: cs :=
  List.dropWhile_cons_of_neg (by simp [h])

theorem trimStart_digits {ds : List Char} (ne : ds ≠ []) (h : ∀ c ∈ ds, c.isDigit = true)
    (rest : List Char) : trimStart (ds ++ rest) = ds ++ rest := by
  obtain ⟨c, ds, rfl⟩ := List.exists_cons_of_ne_nil ne
  exact trimStart_cons (not_isBlank_of_isDigit (h c List.mem_cons_self)) _

/-! ### Fields -/

/-- The digits at the start of a text, when no digit follows them. -/
theorem takeDigits_append {ds rest : List Char} (h : ∀ c ∈ ds, c.isDigit = true)
    (stop : ∀ c ∈ rest.head?, c.isDigit = false) : takeDigits (ds ++ rest) = (ds, rest) := by
  rw [takeDigits, List.span_eq_takeWhile_dropWhile, List.takeWhile_append_of_pos h,
    List.dropWhile_append_of_pos h]
  cases rest with
  | nil => simp
  | cons c cs => simp [stop c rfl]

theorem fixedDigits_ne_nil {width n : Nat} (pos : width ≠ 0) : fixedDigits width n ≠ [] := fun eq =>
  pos (by rw [← length_fixedDigits width n, eq]; rfl)

theorem takeField_fixedDigits {width : Nat} (pos : width ≠ 0) (n : Nat) (rest : List Char) :
    takeField width (fixedDigits width n ++ rest) =
      some (digitsValue (fixedDigits width n), rest) := by
  have digit : ∀ c ∈ fixedDigits width n, c.isDigit = true := fun c => isDigit_of_mem_fixedDigits
  have taken : ((fixedDigits width n ++ rest).take width).takeWhile Char.isDigit =
      fixedDigits width n := by
    rw [List.take_left' (length_fixedDigits width n), List.takeWhile_eq_self_iff.2 digit]
  rw [takeField, trimStart_digits (fixedDigits_ne_nil pos) digit]
  simp only [taken]
  cases eq : fixedDigits width n with
  | nil => exact absurd eq (fixedDigits_ne_nil pos)
  | cons c ds => simp

theorem takeMark_cons {mark : Char} (h : isBlank mark = false) (rest : List Char) :
    takeMark mark (mark :: rest) = some rest := by
  simp [takeMark, trimStart_cons h]

theorem digitsValue_two {n : Nat} (h : n < 100) : digitsValue (fixedDigits 2 n) = n := by
  have empty : digitsValue (fixedDigits 0 (n / 10 / 10)) = 0 := rfl
  rw [digitsValue_fixedDigits_succ, digitsValue_fixedDigits_succ, empty]
  omega

theorem digitsValue_four {n : Nat} (h : n < 10000) : digitsValue (fixedDigits 4 n) = n := by
  have empty : digitsValue (fixedDigits 0 (n / 10 / 10 / 10 / 10)) = 0 := rfl
  simp only [digitsValue_fixedDigits_succ, empty]
  omega

theorem takeField_two {n : Nat} (h : n < 100) (rest : List Char) :
    takeField 2 (fixedDigits 2 n ++ rest) = some (n, rest) := by
  rw [takeField_fixedDigits (by decide), digitsValue_two h]

/-! ### Dates -/

namespace Date

/-- The digits behind the sign of a year. -/
def signedYearDigits (n : Nat) : List Char :=
  if n ≤ 9999 then fixedDigits 4 n else decimalDigits n

theorem signedYearDigits_ne_nil (n : Nat) : signedYearDigits n ≠ [] := by
  unfold signedYearDigits
  split
  · exact fixedDigits_ne_nil (by decide)
  · exact Nat.toDigits_ne_nil

theorem isDigit_of_mem_signedYearDigits {n : Nat} {c : Char} (h : c ∈ signedYearDigits n) :
    c.isDigit = true := by
  unfold signedYearDigits at h
  split at h
  · exact isDigit_of_mem_fixedDigits h
  · exact isDigit_of_mem_decimalDigits h

theorem digitsValue_signedYearDigits (n : Nat) : digitsValue (signedYearDigits n) = n := by
  unfold signedYearDigits
  split
  · exact digitsValue_four (by omega)
  · exact digitsValue_decimalDigits n

theorem takeDigits_signedYearDigits (n : Nat) (rest : List Char) :
    takeDigits (signedYearDigits n ++ '-' :: rest) = (signedYearDigits n, '-' :: rest) :=
  takeDigits_append (fun _ => isDigit_of_mem_signedYearDigits) fun c hc => by cases hc; decide

/-- A year has four digits, or its sign and the digits of its distance from zero. -/
theorem yearText_cases (year : Int) :
    (∃ n : Nat, n < 10000 ∧ (n : Int) = year ∧ yearText year = fixedDigits 4 n) ∨
      ∃ (sign : Char) (n : Nat), (sign = '+' ∨ sign = '-') ∧
        (if sign = '-' then -(n : Int) else n) = year ∧
        yearText year = sign :: signedYearDigits n := by
  by_cases plain : 0 ≤ year ∧ year ≤ 9999
  · exact .inl ⟨year.toNat, by omega, Int.toNat_of_nonneg plain.1, if_pos plain⟩
  · refine .inr ⟨if year < 0 then '-' else '+', year.natAbs, ?_, ?_, if_neg plain⟩
    · by_cases negative : year < 0 <;> simp [negative]
    · by_cases negative : year < 0
      · rw [if_pos negative, if_pos rfl]
        omega
      · rw [if_neg negative, if_neg (by decide)]
        omega

theorem takeSign_fixedDigits {width : Nat} (pos : width ≠ 0) (n : Nat) (rest : List Char) :
    takeSign (fixedDigits width n ++ rest) = (none, fixedDigits width n ++ rest) := by
  cases eq : fixedDigits width n with
  | nil => exact absurd eq (fixedDigits_ne_nil pos)
  | cons c ds =>
    have first : c.isDigit = true := isDigit_of_mem_fixedDigits (eq ▸ List.mem_cons_self)
    have unsigned : ¬(c = '+' ∨ c = '-') := by
      rintro (rfl | rfl) <;> cases first
    rw [List.cons_append, takeSign, if_neg unsigned]

theorem takeYear_signed {sign : Char} (h : sign = '+' ∨ sign = '-') (n : Nat) (rest : List Char) :
    takeYear (sign :: signedYearDigits n ++ '-' :: rest) =
      some (if sign = '-' then -(n : Int) else n, '-' :: rest) := by
  have visible : isBlank sign = false := by rcases h with rfl | rfl <;> decide
  have value := digitsValue_signedYearDigits n
  rw [takeYear, List.cons_append, trimStart_cons visible, takeSign, if_pos h]
  simp only [takeDigits_signedYearDigits]
  cases eq : signedYearDigits n with
  | nil => exact absurd eq (signedYearDigits_ne_nil n)
  | cons c ds =>
    rw [eq] at value
    simp only [value]

theorem takeYear_unsigned {n : Nat} (h : n < 10000) (rest : List Char) :
    takeYear (fixedDigits 4 n ++ rest) = some ((n : Int), rest) := by
  have digit : ∀ c ∈ fixedDigits 4 n, c.isDigit = true := fun c => isDigit_of_mem_fixedDigits
  rw [takeYear, trimStart_digits (fixedDigits_ne_nil (by decide)) digit,
    takeSign_fixedDigits (by decide)]
  simp only [takeField_fixedDigits (by decide : 4 ≠ 0), digitsValue_four h, Option.map_some]

theorem takeYear_yearText (year : Int) (rest : List Char) :
    takeYear (yearText year ++ '-' :: rest) = some (year, '-' :: rest) := by
  rcases yearText_cases year with ⟨n, small, rfl, text⟩ | ⟨sign, n, signed, rfl, text⟩
  · rw [text, takeYear_unsigned small]
  · rw [text, takeYear_signed signed]

theorem of?_self (d : Date) : of? d.year d.month d.day = some d := by
  rw [of?, dif_pos d.year_range, dif_pos d.month_range, dif_pos d.day_range]

theorem day_lt (d : Date) : d.day < 100 := by
  have last := d.day_range.2
  unfold daysInMonth at last
  grind

/-- A date is read back in front of whatever follows it. -/
theorem take_characters (d : Date) (rest : List Char) :
    Date.take (d.characters ++ rest) = some (d, rest) := by
  have month : d.month < 100 := by have := d.month_range; omega
  have split : d.characters ++ rest =
      yearText d.year ++ '-' :: (fixedDigits 2 d.month ++ '-' :: (fixedDigits 2 d.day ++ rest)) := by
    simp [characters]
  rw [Date.take, split, takeYear_yearText]
  have dash := takeMark_cons (by decide : isBlank '-' = false)
  simp only [Option.bind_eq_bind, Option.bind_some, dash, takeField_two month,
    takeField_two d.day_lt, of?_self]
  rfl

theorem ofText?_text (d : Date) : ofText? d.text = some d := by
  have take := d.take_characters []
  rw [List.append_nil] at take
  rw [ofText?, text, String.toList_ofList, take]
  rfl

end Date

/-! ### Times -/

namespace TimeOfDay

theorem of?_self (t : TimeOfDay) : of? t.hour t.minute t.second t.nanosecond = some t := by
  rw [of?, dif_pos t.hour_lt, dif_pos t.minute_lt, dif_pos t.second_le, dif_pos t.nanosecond_lt]

theorem takeFraction_digits {width : Nat} (pos : width ≠ 0) (n : Nat) :
    takeFraction ('.' :: fixedDigits width n) =
      some (digitsValue ((fixedDigits width n ++ List.replicate 9 '0').take 9), []) := by
  have digit : ∀ c ∈ fixedDigits width n, c.isDigit = true := fun c => isDigit_of_mem_fixedDigits
  have digits : takeDigits (fixedDigits width n) = (fixedDigits width n, []) := by
    simpa using takeDigits_append digit (by simp : ∀ c ∈ ([] : List Char).head?, c.isDigit = false)
  simp only [takeFraction, digits]
  cases eq : fixedDigits width n with
  | nil => exact absurd eq (fixedDigits_ne_nil pos)
  | cons c ds => rfl

/-- Zeros behind a fraction make nanoseconds of it. -/
theorem digitsValue_filled {width : Nat} (h : width ≤ 9) (n : Nat) :
    digitsValue ((fixedDigits width n ++ List.replicate 9 '0').take 9) =
      (List.replicate (9 - width) '0').foldl (fun m _ => 10 * m)
        (digitsValue (fixedDigits width n)) := by
  have length := length_fixedDigits width n
  rw [List.take_append, length, List.take_of_length_le (by omega), List.take_replicate,
    Nat.min_eq_left (by omega), digitsValue, List.foldl_append, ← digitsValue]
  generalize digitsValue (fixedDigits width n) = m
  generalize 9 - width = k
  induction k generalizing m with
  | zero => rfl
  | succ k ih =>
    rw [List.replicate_succ, List.foldl_cons, List.foldl_cons, ih]
    rfl

theorem takeFraction_fraction {nanosecond : Nat} (h : nanosecond < 1000000000) :
    takeFraction (fraction .fewest nanosecond) = some (nanosecond, []) := by
  have empty (n : Nat) : digitsValue (fixedDigits 0 n) = 0 := rfl
  simp only [fraction]
  split_ifs with zero
  · rw [zero]
    rfl
  all_goals
    rw [takeFraction_digits (by decide), digitsValue_filled (by decide)]
    simp only [digitsValue_fixedDigits_succ, empty, Nat.reduceSub, List.replicate, List.foldl_cons,
      List.foldl_nil]
    congr 2
    omega

theorem take_characters (t : TimeOfDay) : take (t.characters .fewest) = some (t, []) := by
  have hour : t.hour < 100 := by have := t.hour_lt; omega
  have minute : t.minute < 100 := by have := t.minute_lt; omega
  have second : t.second < 100 := by have := t.second_le; omega
  have colon := takeMark_cons (by decide : isBlank ':' = false)
  simp only [take, characters, List.append_assoc, List.cons_append, Option.bind_eq_bind,
    Option.bind_some, takeField_two hour, takeField_two minute, takeField_two second, colon,
    takeFraction_fraction t.nanosecond_lt, of?_self]
  rfl

end TimeOfDay

theorem DateTime.ofText?_text (dt : DateTime) : ofText? (dt.text 'T') = some dt := by
  have mark := takeMark_cons (by decide : isBlank 'T' = false)
  rw [ofText?, text, String.toList_ofList, characters]
  simp only [Date.take_characters, Option.bind_eq_bind, Option.bind_some, mark,
    TimeOfDay.take_characters]
  rfl

end SelectCompiler
