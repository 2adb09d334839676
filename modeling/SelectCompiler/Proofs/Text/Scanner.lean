import SelectCompiler.Proofs.Tokens.Characters

/-!
Reading quotes. A scanner goes through a text character by character and decodes the quoted names
and string constants of a dialect; it fails where one of them does not end. Main statements: what a
dialect quotes is decoded again, if nothing that follows continues it.
-/

namespace SelectCompiler

inductive Scanned where
  | name (n : String)
  | text (s : String)
  /-- A character outside of quotes. -/
  | plain (c : Char)
deriving DecidableEq

/-- Where the scanner stands; what is quoted has been decoded so far. -/
inductive ScanState where
  | outside
  | inName (decoded : List Char)
  /-- After a closing quote, which may be the first of two. -/
  | nameEnd (decoded : List Char)
  | inText (decoded : List Char)
  | textEnd (decoded : List Char)
  | escape (decoded : List Char)
deriving DecidableEq

/-- What ends with the text; a quote that is still open is a failure. -/
def ScanState.complete : ScanState → Option (List Scanned)
  | .outside => some []
  | .nameEnd cs => some [.name (String.ofList cs)]
  | .textEnd cs => some [.text (String.ofList cs)]
  | _ => none

/-- The characters that a backslash and a character stand for. -/
def unescaped : Char → List Char
  | 'n' => ['\n']
  | 't' => ['\t']
  | 'r' => ['\r']
  | 'b' => ['\x08']
  | '0' => ['\x00']
  | 'Z' => ['\x1a']
  | '%' => ['\\', '%']
  | '_' => ['\\', '_']
  | c => [c]

/-- Characters that neither open nor close a quote in any dialect. -/
def isUnquoted (c : Char) : Bool := !(['\'', '"', '\x60', '[', ']'].contains c)

namespace Dialect

variable (d : Dialect)

def scanOutside (c : Char) : ScanState × List Scanned :=
  if c = d.quotes.opening then (.inName [], [])
  else if c = '\'' then (.inText [], [])
  else (.outside, [.plain c])

/-- One character, and what it completes. -/
def scanStep : ScanState → Char → ScanState × List Scanned
  | .outside, c => d.scanOutside c
  | .inName cs, c => (if c = d.quotes.closing then .nameEnd cs else .inName (cs ++ [c]), [])
  | .nameEnd cs, c =>
    if c = d.quotes.closing then (.inName (cs ++ [c]), [])
    else ((d.scanOutside c).1, .name (String.ofList cs) :: (d.scanOutside c).2)
  | .inText cs, c =>
    (if c = '\'' then .textEnd cs
      else if d.backslashEscapes && c == '\\' then .escape cs
      else .inText (cs ++ [c]), [])
  | .textEnd cs, c =>
    if c = '\'' then (.inText (cs ++ [c]), [])
    else ((d.scanOutside c).1, .text (String.ofList cs) :: (d.scanOutside c).2)
  | .escape cs, c => (.inText (cs ++ unescaped c), [])

def scanFrom : ScanState → List Char → Option (List Scanned)
  | state, [] => state.complete
  | state, c :: cs => (scanFrom (d.scanStep state c).1 cs).map ((d.scanStep state c).2 ++ ·)

/-- The names, string constants and other characters of a text. -/
def scan (text : String) : Option (List Scanned) := d.scanFrom .outside text.toList

variable {d}

/-! ### Outside of quotes -/

theorem quotes_of_isUnquoted (hd : d.BuiltIn) {c : Char} (h : isUnquoted c = true) :
    c ≠ d.quotes.opening ∧ c ≠ d.quotes.closing ∧ c ≠ '\'' := by
  simp only [isUnquoted, List.contains_eq_mem, List.mem_cons, List.not_mem_nil, or_false,
    Bool.not_eq_true', decide_eq_false_iff_not, not_or] at h
  cases hd <;> exact ⟨by first | exact h.2.1 | exact h.2.2.1 | exact h.2.2.2.1,
    by first | exact h.2.1 | exact h.2.2.1 | exact h.2.2.2.2, h.1⟩

theorem scanFrom_plain (hd : d.BuiltIn) {cs : List Char} (h : ∀ c ∈ cs, isUnquoted c = true)
    (rest : List Char) :
    d.scanFrom .outside (cs ++ rest) =
      (d.scanFrom .outside rest).map (cs.map .plain ++ ·) := by
  induction cs with
  | nil => simp
  | cons c cs ih =>
    obtain ⟨opening, -, quote⟩ := quotes_of_isUnquoted hd (h c List.mem_cons_self)
    rw [List.cons_append, scanFrom, scanStep, scanOutside, if_neg opening, if_neg quote,
      ih fun c hc => h c (List.mem_cons_of_mem _ hc)]
    simp [Function.comp_def]

/-! ### Names -/

theorem scanFrom_inName (decoded cs rest : List Char) :
    d.scanFrom (.inName decoded)
        (doubling (· == d.quotes.closing) cs ++ d.quotes.closing :: rest) =
      d.scanFrom (.nameEnd (decoded ++ cs)) rest := by
  induction cs generalizing decoded with
  | nil => simp [doubling, scanFrom, scanStep]
  | cons c cs ih =>
    rw [doubling, List.flatMap_cons, ← doubling, List.append_assoc]
    by_cases h : c = d.quotes.closing
    · -- the closing quote is doubled, so the first one does not end the name
      have := ih (decoded ++ [c])
      simp [h, scanFrom, scanStep] at this ⊢
      exact this
    · have := ih (decoded ++ [c])
      simp [h, scanFrom, scanStep] at this ⊢
      exact this

theorem scanFrom_nameEnd {decoded rest : List Char} (h : rest.head? ≠ some d.quotes.closing) :
    d.scanFrom (.nameEnd decoded) rest =
      (d.scanFrom .outside rest).map (.name (String.ofList decoded) :: ·) := by
  cases rest with
  | nil => rfl
  | cons c cs =>
    have : c ≠ d.quotes.closing := fun eq => h (by rw [eq]; rfl)
    simp [scanFrom, scanStep, this]
    rfl

/-- A quoted name is decoded to itself, unless a closing quote follows. -/
theorem scanFrom_quoteName (n : String) {rest : List Char}
    (h : rest.head? ≠ some d.quotes.closing) :
    d.scanFrom .outside ((d.quoteName n).toList ++ rest) =
      (d.scanFrom .outside rest).map (.name n :: ·) := by
  rw [quoteName, String.toList_ofList, List.append_assoc, List.cons_append, List.singleton_append,
    scanFrom]
  simp only [scanStep, scanOutside, if_pos]
  rw [scanFrom_inName, scanFrom_nameEnd h]
  simp [Function.comp_def]

/-! ### String constants -/

theorem scanFrom_inText (decoded cs rest : List Char) :
    d.scanFrom (.inText decoded)
        (doubling (fun c => c == '\'' || (d.backslashEscapes && c == '\\')) cs ++ '\'' :: rest) =
      d.scanFrom (.textEnd (decoded ++ cs)) rest := by
  induction cs generalizing decoded with
  | nil => simp [doubling, scanFrom, scanStep]
  | cons c cs ih =>
    rw [doubling, List.flatMap_cons, ← doubling, List.append_assoc]
    have := ih (decoded ++ [c])
    by_cases quote : c = '\''
    · subst quote
      simp [scanFrom, scanStep] at this ⊢
      exact this
    · by_cases escape : d.backslashEscapes = true ∧ c = '\\'
      · obtain ⟨escapes, rfl⟩ := escape
        simp [escapes, scanFrom, scanStep, unescaped] at this ⊢
        exact this
      · have single : (d.backslashEscapes && c == '\\') = false := by
          rw [Bool.eq_false_iff, ne_eq, Bool.and_eq_true, beq_iff_eq]
          exact escape
        simp [quote, single, scanFrom, scanStep] at this ⊢
        exact this

theorem scanFrom_textEnd {decoded rest : List Char} (h : rest.head? ≠ some '\'') :
    d.scanFrom (.textEnd decoded) rest =
      (d.scanFrom .outside rest).map (.text (String.ofList decoded) :: ·) := by
  cases rest with
  | nil => rfl
  | cons c cs =>
    have : c ≠ '\'' := fun eq => h (by rw [eq]; rfl)
    simp [scanFrom, scanStep, this]
    rfl

/-- A string constant is decoded to its content, unless a quote follows. -/
theorem scanFrom_quoteText (hd : d.BuiltIn) (s : String) {rest : List Char}
    (h : rest.head? ≠ some '\'') :
    d.scanFrom .outside ((d.quoteText s).toList ++ rest) =
      (d.scanFrom .outside rest).map (.text s :: ·) := by
  have opening : '\'' ≠ d.quotes.opening := by cases hd <;> exact of_decide_eq_true rfl
  rw [quoteText, String.toList_ofList, List.append_assoc, List.cons_append, List.singleton_append,
    scanFrom]
  simp only [scanStep, scanOutside, if_neg opening, if_pos]
  rw [scanFrom_inText, scanFrom_textEnd h]
  simp [Function.comp_def]

end Dialect

end SelectCompiler
