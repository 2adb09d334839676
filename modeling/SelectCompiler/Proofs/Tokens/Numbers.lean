import SelectCompiler.Proofs.Dialects
import SelectCompiler.Proofs.Text.Digits
import SelectCompiler.Sql.Parentheses

/-!
The characters of bare constants. Main statement: a bare constant is a word or a number, behind a
minus sign at most, and behind none where the value has no sign.
-/

namespace SelectCompiler

/-- Digits, letters and points, a digit in front. -/
structure IsMantissa (cs : List Char) : Prop where
  head : ∃ c, cs.head? = some c ∧ c.isDigit = true
  body : ∀ c ∈ cs, c.isAlphanum = true ∨ c = '.'

/-- Nothing, or the exponent of a number, if it has a sign of its own. -/
def IsSignedExponent (cs : List Char) : Prop :=
  cs = [] ∨ ∃ sign digits, cs = 'e' :: sign :: digits ∧ (sign = '+' ∨ sign = '-') ∧
    ∀ c ∈ digits, c.isDigit = true

def IsNumber (cs : List Char) : Prop :=
  ∃ mantissa exponent, cs = mantissa ++ exponent ∧ IsMantissa mantissa ∧ IsSignedExponent exponent

/-- The bare constants that are no numbers. -/
def constantWords : List String := ["NULL", "TRUE", "FALSE", "NaN", "inf"]

/-- What a bare constant is, its sign aside. -/
def IsUnsigned (cs : List Char) : Prop := (∃ w ∈ constantWords, cs = w.toList) ∨ IsNumber cs

theorem constantWord_chars :
    ∀ w ∈ constantWords, w.toList ≠ [] ∧ w.toList.all Char.isAlpha = true := by
  decide

theorem isAlphanum_of_isDigit {c : Char} (h : c.isDigit = true) : c.isAlphanum = true := by
  simp [Char.isAlphanum, h]

namespace IsMantissa

variable {cs ds : List Char}

theorem ofDigits (ne : ds ≠ []) (h : ∀ c ∈ ds, c.isDigit = true) : IsMantissa ds where
  head := by
    cases ds with
    | nil => exact absurd rfl ne
    | cons c ds => exact ⟨c, rfl, h c List.mem_cons_self⟩
  body c hc := .inl (isAlphanum_of_isDigit (h c hc))

theorem append (h : IsMantissa cs) (body : ∀ c ∈ ds, c.isAlphanum = true ∨ c = '.') :
    IsMantissa (cs ++ ds) where
  head := by
    obtain ⟨c, hc, digit⟩ := h.head
    exact ⟨c, by rw [List.head?_append, hc]; rfl, digit⟩
  body c hc := (List.mem_append.1 hc).elim (h.body c) (body c)

theorem isNumber (h : IsMantissa cs) : IsNumber cs := ⟨cs, [], by simp, h, .inl rfl⟩

end IsMantissa

theorem isUnsigned_word {w : String} (h : w ∈ constantWords) : IsUnsigned w.toList :=
  .inl ⟨w, h, rfl⟩

theorem isUnsigned_digits {cs : List Char} (ne : cs ≠ []) (h : cs.all Char.isDigit = true) :
    IsUnsigned cs :=
  .inr (IsMantissa.ofDigits ne (List.all_eq_true.1 h)).isNumber

theorem isMantissa_zero : IsMantissa ['0'] :=
  .ofDigits (by simp) (List.all_eq_true.1 (by decide))

theorem isMantissa_decimalDigits (n : Nat) : IsMantissa (decimalDigits n) :=
  .ofDigits Nat.toDigits_ne_nil fun _ => isDigit_of_mem_decimalDigits

/-! ### Integers -/

theorem toList_toString_natCast (n : Nat) : (toString (n : Int)).toList = decimalDigits n := by
  rw [show toString (n : Int) = Nat.repr n from rfl, Nat.toList_repr]
  rfl

theorem toList_toString_negSucc (n : Nat) :
    (toString (Int.negSucc n)).toList = '-' :: decimalDigits (n + 1) := by
  rw [show toString (Int.negSucc n) = "-" ++ Nat.repr (n + 1) from rfl, String.toList_append,
    Nat.toList_repr]
  rfl

/-- The value of digits, a minus sign in front of them or not. -/
def integer? : List Char → Option Int
  | '-' :: digits =>
    if digits ≠ [] ∧ digits.all Char.isDigit then some (-digitsValue digits) else none
  | digits => if digits ≠ [] ∧ digits.all Char.isDigit then some (digitsValue digits) else none

theorem integer?_digits {ds : List Char} (ne : ds ≠ []) (digit : ∀ c ∈ ds, c.isDigit = true) :
    integer? ds = some (digitsValue ds : Int) ∧
      integer? ('-' :: ds) = some (-(digitsValue ds : Int)) := by
  have written : ds ≠ [] ∧ ds.all Char.isDigit = true := ⟨ne, List.all_eq_true.2 digit⟩
  refine ⟨?_, if_pos written⟩
  unfold integer?
  split
  · rename_i ds _
    exact absurd (digit '-' List.mem_cons_self) (by decide)
  · exact if_pos written

theorem integer?_toString (n : Int) : integer? (toString n).toList = some n := by
  have digits (n : Nat) := @integer?_digits (decimalDigits n) Nat.toDigits_ne_nil
    fun _ => isDigit_of_mem_decimalDigits
  cases n with
  | ofNat n =>
    rw [Int.ofNat_eq_natCast, toList_toString_natCast, (digits n).1, digitsValue_decimalDigits]
  | negSucc n =>
    rw [toList_toString_negSucc, (digits (n + 1)).2, digitsValue_decimalDigits]
    rfl

theorem isNumber_toString {n : Int} (h : 0 ≤ n) : IsNumber (toString n).toList := by
  cases n with
  | ofNat n =>
    rw [Int.ofNat_eq_natCast, toList_toString_natCast]
    exact (isMantissa_decimalDigits n).isNumber
  | negSucc n => exact absurd h (by omega)

theorem toString_of_neg {n : Int} (h : n < 0) :
    ∃ cs, (toString n).toList = '-' :: cs ∧ IsNumber cs := by
  cases n with
  | ofNat n => exact absurd h (by simp)
  | negSucc n => exact ⟨_, toList_toString_negSucc n, (isMantissa_decimalDigits _).isNumber⟩

/-! ### Binary numbers -/

theorem shortest_digits (tie : Tie) (x : Binary64) :
    (x.shortest tie).digits ≠ [] ∧ ∀ c ∈ (x.shortest tie).digits, c.isDigit = true := by
  unfold Binary64.shortest
  split
  · exact ⟨by simp, List.all_eq_true.1 (by decide)⟩
  · exact ⟨Nat.toDigits_ne_nil, fun _ => isDigit_of_mem_decimalDigits⟩

namespace Layout

variable {l : Layout} {d : Decimal}

theorem isDigit_of_mem_zeros {n : Nat} {c : Char} (h : c ∈ zeros n) : c.isDigit = true := by
  rw [List.eq_of_mem_replicate h]
  decide

theorem isNumber_positional (ne : d.digits ≠ []) (h : ∀ c ∈ d.digits, c.isDigit = true) :
    IsNumber (l.positional d) := by
  have digit {c : Char} (hc : c.isDigit = true) : c.isAlphanum = true ∨ c = '.' :=
    .inl (isAlphanum_of_isDigit hc)
  unfold positional
  split
  · have rest : ∀ c ∈ '.' :: zeros (-d.point).toNat ++ d.digits, c.isAlphanum = true ∨ c = '.' := by
      intro c hc
      rcases List.mem_append.1 hc with hc | hc
      · exact (List.mem_cons.1 hc).elim .inr fun hc => digit (isDigit_of_mem_zeros hc)
      · exact digit (h c hc)
    exact (isMantissa_zero.append rest).isNumber
  · rename_i positive
    split
    · refine (((IsMantissa.ofDigits ne h).append fun c hc => ?_).append fun c hc => ?_).isNumber
      · exact digit (isDigit_of_mem_zeros hc)
      · split at hc
        · simp only [List.mem_cons, List.not_mem_nil, or_false] at hc
          exact hc.elim .inr fun hc => digit (hc ▸ by decide)
        · cases hc
    · have front : d.digits.take d.point.toNat ≠ [] := by
        rw [ne_eq, List.take_eq_nil_iff]
        exact fun none => none.elim (fun zero => by omega) ne
      refine ((IsMantissa.ofDigits front fun c hc => h c (List.mem_of_mem_take hc)).append
        fun c hc => ?_).isNumber
      exact (List.mem_cons.1 hc).elim .inr fun hc => digit (h c (List.mem_of_mem_drop hc))

theorem isNumber_exponential (ne : d.digits ≠ []) (h : ∀ c ∈ d.digits, c.isDigit = true) :
    IsNumber (l.exponential d) := by
  have digit {c : Char} (hc : c.isDigit = true) : c.isAlphanum = true ∨ c = '.' :=
    .inl (isAlphanum_of_isDigit hc)
  have front : d.digits.take 1 ≠ [] := by
    rw [ne_eq, List.take_eq_nil_iff]
    exact fun none => none.elim (fun zero => nomatch zero) ne
  have mantissa : IsMantissa
      (d.digits.take 1 ++ if d.digits.length ≤ 1 then [] else '.' :: d.digits.drop 1) := by
    refine (IsMantissa.ofDigits front fun c hc => h c (List.mem_of_mem_take hc)).append
      fun c hc => ?_
    split at hc
    · cases hc
    · exact (List.mem_cons.1 hc).elim .inr fun hc => digit (h c (List.mem_of_mem_drop hc))
  unfold exponential
  generalize d.digits.take 1 ++ (if d.digits.length ≤ 1 then [] else '.' :: d.digits.drop 1) =
    digits at mantissa ⊢
  rw [List.append_assoc, List.cons_append]
  cases n : d.point - 1 with
  | ofNat n =>
    rw [Int.ofNat_eq_natCast, toList_toString_natCast]
    split
    · exact ⟨_, _, rfl, mantissa, .inr ⟨'+', _, rfl, .inl rfl,
        fun _ => isDigit_of_mem_decimalDigits⟩⟩
    · refine (mantissa.append fun c hc => ?_).isNumber
      exact (List.mem_cons.1 hc).elim (fun hc => .inl (hc ▸ by decide))
        fun hc => digit (isDigit_of_mem_decimalDigits hc)
  | negSucc n =>
    -- a negative exponent has no plus sign
    have small : ¬(l.exponentPlus = true ∧ 0 < d.point) := fun h => by omega
    rw [toList_toString_negSucc, if_neg small]
    exact ⟨_, _, rfl, mantissa, .inr ⟨'-', _, rfl, .inr rfl,
      fun _ => isDigit_of_mem_decimalDigits⟩⟩

theorem text_cases (l : Layout) (x : Binary64) :
    IsUnsigned (l.text x).toList ∨
      x.isNegative = true ∧ ∃ cs, (l.text x).toList = '-' :: cs ∧ IsUnsigned cs := by
  unfold text
  split
  · obtain ⟨ne, digits⟩ := shortest_digits l.tie x
    have number : IsNumber (if l.isPositional (x.shortest l.tie) then
        l.positional (x.shortest l.tie) else l.exponential (x.shortest l.tie)) := by
      split
      · exact isNumber_positional ne digits
      · exact isNumber_exponential ne digits
    rw [String.toList_ofList, characters]
    cases negative : x.isNegative with
    | true => exact .inr ⟨rfl, _, rfl, .inr number⟩
    | false => exact .inl (.inr number)
  · split
    · exact .inl (isUnsigned_word (by decide))
    · split
      · rename_i negative
        exact .inr ⟨negative, "inf".toList, by decide, isUnsigned_word (by decide)⟩
      · exact .inl (isUnsigned_word (by decide))

end Layout

/-! ### Bare constants -/

/-- A bare constant that is written without a sign, or whose value has one. -/
def Value.isSigned : Value → Bool
  | .int n => decide (n.toInt < 0)
  | .float x => x.isNegative
  | _ => false

theorem isMantissa_hex (bytes : List UInt8) : IsMantissa ("0x" ++ upperHex bytes).toList := by
  have upper : ∀ n < 16, (Nat.digitChar n).toUpper.isAlphanum = true := by decide
  have lead : IsMantissa "0x".toList :=
    ⟨⟨'0', by decide, by decide⟩, fun c hc => .inl (List.all_eq_true.1 (by decide) c hc)⟩
  rw [String.toList_append, upperHex]
  refine lead.append fun c hc => .inl ?_
  · obtain ⟨b, -, hb⟩ := List.mem_flatMap.1 (String.toList_ofList ▸ hc)
    have bound := b.toNat_lt
    simp only [List.mem_cons, List.not_mem_nil, or_false] at hb
    rcases hb with hb | hb
    · exact hb ▸ upper _ (by omega)
    · exact hb ▸ upper _ (by omega)

theorem Dialect.boolWord_mem {d : Dialect} (hd : d.BuiltIn) (b : Bool) :
    d.boolWord b ∈ ["TRUE", "FALSE", "1", "0"] := by
  cases hd <;> cases b <;> simp [boolWord, postgres, mysql, sqlite, sqlServer, oracle]

theorem isUnsigned_boolWord {d : Dialect} (hd : d.BuiltIn) (b : Bool) :
    IsUnsigned (d.boolWord b).toList := by
  have mem := Dialect.boolWord_mem hd b
  simp only [List.mem_cons, List.not_mem_nil, or_false] at mem
  rcases mem with h | h | h | h <;> rw [h]
  · exact isUnsigned_word (by decide)
  · exact isUnsigned_word (by decide)
  · exact isUnsigned_digits (by decide) (by decide)
  · exact isUnsigned_digits (by decide) (by decide)

theorem Dialect.constant_bare {d : Dialect} (hd : d.BuiltIn) {value : Value} {type : SqlType}
    {text : String} (h : d.constant value type = .bare text) :
    IsUnsigned text.toList ∨
      value.isSigned = true ∧ ∃ cs, text.toList = '-' :: cs ∧ IsUnsigned cs := by
  cases value with
  | null =>
    obtain rfl := Constant.bare.inj h
    exact .inl (isUnsigned_word (by decide))
  | bool b =>
    obtain rfl := Constant.bare.inj h
    exact .inl (isUnsigned_boolWord hd b)
  | int n =>
    obtain rfl := Constant.bare.inj h
    by_cases negative : n.toInt < 0
    · obtain ⟨cs, eq, number⟩ := toString_of_neg negative
      exact .inr ⟨by simpa [Value.isSigned] using negative, cs, eq, .inr number⟩
    · exact .inl (.inr (isNumber_toString (by omega)))
  | float x =>
    obtain rfl := Constant.bare.inj h
    exact Layout.text_cases _ x
  | bytes bs =>
    simp only [constant] at h
    split at h <;> cases h
    exact .inl (.inr (isMantissa_hex bs).isNumber)
  | text s => cases h
  | date date => cases h
  | dateTime dt => cases h

end SelectCompiler
