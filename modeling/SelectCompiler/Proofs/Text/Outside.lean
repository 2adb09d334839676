import SelectCompiler.Proofs.Text.Words
import SelectCompiler.Proofs.Tokens.Items

/-!
What stands outside of quotes and parentheses in a text. Main statement: if words and commas are
picked there, those of a written phrase are those of its items.
-/

namespace SelectCompiler

open LexState (run)
open Token (items)

namespace Lexeme

/-- What stands outside of parentheses, so many of them being open. -/
def outside : (opened : Nat) → List Lexeme → List Lexeme
  | _, [] => []
  | k, l :: ls =>
    if l = opening then outside (k + 1) ls
    else if l = closing then outside (k - 1) ls
    else if k = 0 then l :: outside k ls
    else outside k ls

/-! ### Parentheses among lexemes -/

theorem parenthesis?_eq_none {l : Lexeme} (opens : l ≠ opening) (closes : l ≠ closing) :
    l.parenthesis? = none := by
  cases l <;> first | rfl | contradiction

theorem outside_append {k m : Nat} {ls : List Lexeme}
    (h : parenDepth k (ls.filterMap parenthesis?) = some m) (rest : List Lexeme) :
    outside k (ls ++ rest) = outside k ls ++ outside m rest := by
  induction ls generalizing k with
  | nil => cases h; rfl
  | cons l ls ih =>
    rw [List.cons_append, outside, outside]
    split
    · subst l
      exact ih h
    · rename_i opens
      split
      · subst l
        cases k with
        | zero => cases h
        | succ k => exact ih h
      · rename_i closes
        rw [List.filterMap_cons_none (parenthesis?_eq_none opens closes)] at h
        split
        · rw [ih h, List.cons_append]
        · exact ih h

/-- Nothing is outside of a pair of parentheses around what closes. -/
theorem outside_hidden {k m j : Nat} {ls : List Lexeme}
    (h : parenDepth k (ls.filterMap parenthesis?) = some m) : outside (k + j + 1) ls = [] := by
  induction ls generalizing k with
  | nil => rfl
  | cons l ls ih =>
    rw [outside]
    split
    · subst l
      have := ih h
      rwa [Nat.add_right_comm k 1 j] at this
    · rename_i opens
      split
      · subst l
        cases k with
        | zero => cases h
        | succ k =>
          have := ih h
          rwa [Nat.add_right_comm k j 1] at this
      · rename_i closes
        rw [List.filterMap_cons_none (parenthesis?_eq_none opens closes)] at h
        rw [if_neg (Nat.succ_ne_zero _), ih h]

/-! ### Picking -/

/-- What is picked outside of parentheses. -/
def picked {α : Type} (pick : Lexeme → Option α) (ls : List Lexeme) : List α :=
  (outside 0 ls).filterMap pick

section Picked

variable {α : Type} {pick : Lexeme → Option α}

@[simp] theorem picked_nil : picked pick [] = [] := rfl

theorem picked_cons {l : Lexeme} (apart : l.parenthesis? = none) (ls : List Lexeme) :
    picked pick (l :: ls) = (pick l).toList ++ picked pick ls := by
  have opens : l ≠ opening := by rintro rfl; cases apart
  have closes : l ≠ closing := by rintro rfl; cases apart
  rw [picked, outside, if_neg opens, if_neg closes, if_pos rfl, picked]
  cases found : pick l with
  | none => rw [List.filterMap_cons_none found]; rfl
  | some x => rw [List.filterMap_cons_some found]; rfl

/-- A lexeme that is neither a parenthesis nor picked. -/
theorem picked_silent {l : Lexeme} (apart : l.parenthesis? = none) (silent : pick l = none)
    (ls : List Lexeme) : picked pick (l :: ls) = picked pick ls := by
  rw [picked_cons apart, silent]
  rfl

theorem picked_append {ls : List Lexeme} (h : IsBalanced (ls.filterMap parenthesis?))
    (rest : List Lexeme) : picked pick (ls ++ rest) = picked pick ls ++ picked pick rest := by
  rw [picked, outside_append h, List.filterMap_append, picked, picked]

theorem picked_enclosed {ls : List Lexeme} (h : IsBalanced (ls.filterMap parenthesis?))
    (rest : List Lexeme) : picked pick (opening :: (ls ++ closing :: rest)) = picked pick rest := by
  have within : parenDepth 1 (ls.filterMap parenthesis?) = some 1 := by
    rw [← List.append_nil (ls.filterMap parenthesis?), h.depth]
    rfl
  have hidden : outside 1 ls = [] := outside_hidden (j := 0) h
  rw [picked, outside, if_pos rfl, outside_append within, hidden, outside, if_neg (by decide),
    if_pos rfl]
  rfl

end Picked

theorem picked_eq_nil_iff {α : Type} {pick : Lexeme → Option α} {ls : List Lexeme} :
    picked pick ls = [] ↔ ∀ l ∈ outside 0 ls, pick l = none :=
  List.filterMap_eq_nil_iff

/-- Divides in front of every lexeme outside of parentheses that begins a section. -/
def sections (begins : Lexeme → Bool) : (opened : Nat) → List Lexeme → List Lexeme × List (List Lexeme)
  | _, [] => ([], [])
  | k, l :: ls =>
    let rest := sections begins (if l = opening then k + 1 else if l = closing then k - 1 else k) ls
    if k = 0 ∧ begins l = true then ([], (l :: rest.1) :: rest.2) else (l :: rest.1, rest.2)

/-- Divides in front of the first such lexeme. -/
def cut (begins : Lexeme → Bool) (ls : List Lexeme) : List Lexeme × List Lexeme :=
  ((sections begins 0 ls).1, (sections begins 0 ls).2.flatten)

@[simp] theorem cut_nil (begins : Lexeme → Bool) : cut begins [] = ([], []) := rfl

section Sections

variable {begins : Lexeme → Bool} (opens : begins opening = false) (closes : begins closing = false)
include opens closes

/-- What begins no section is passed over. -/
theorem sections_append {k m : Nat} {ls : List Lexeme}
    (h : parenDepth k (ls.filterMap parenthesis?) = some m)
    (none : ∀ l ∈ outside k ls, begins l = false) (rest : List Lexeme) :
    sections begins k (ls ++ rest) =
      (ls ++ (sections begins m rest).1, (sections begins m rest).2) := by
  induction ls generalizing k with
  | nil => cases h; rfl
  | cons l ls ih =>
    rw [outside] at none
    rw [List.cons_append, sections]
    split at none
    · subst l
      rw [if_neg (by simp [opens]), if_pos rfl, ih h none]
      rfl
    · rename_i other
      split at none
      · subst l
        cases k with
        | zero => cases h
        | succ k =>
          rw [if_neg (by simp [closes]), if_neg other, if_pos rfl, Nat.add_sub_cancel, ih h none]
          rfl
      · rename_i other'
        rw [List.filterMap_cons_none (parenthesis?_eq_none other other')] at h
        rw [if_neg other, if_neg other']
        split at none
        · obtain ⟨first, none⟩ := List.forall_mem_cons.1 none
          rw [if_neg (by simp [first]), ih h none]
          rfl
        · rename_i within
          rw [if_neg (by simp [within]), ih h none]
          rfl

theorem sections_cons {l : Lexeme} (h : begins l = true) (ls : List Lexeme) :
    sections begins 0 (l :: ls) =
      ([], (l :: (sections begins 0 ls).1) :: (sections begins 0 ls).2) := by
  have other : l ≠ opening := by
    rintro rfl
    simp [opens] at h
  have other' : l ≠ closing := by
    rintro rfl
    simp [closes] at h
  rw [sections, if_pos ⟨rfl, h⟩, if_neg other, if_neg other']

omit opens closes in
theorem flatten_sections (k : Nat) (ls : List Lexeme) :
    (sections begins k ls).1 ++ (sections begins k ls).2.flatten = ls := by
  induction ls generalizing k with
  | nil => rfl
  | cons l ls ih =>
    rw [sections]
    split
    · exact congrArg (l :: ·) (ih _)
    · exact congrArg (l :: ·) (ih _)

theorem cut_cons {l : Lexeme} (h : begins l = true) (ls : List Lexeme) :
    cut begins (l :: ls) = ([], l :: ls) := by
  rw [cut, sections_cons opens closes h, List.flatten_cons, List.cons_append, flatten_sections]

end Sections

/-- Parentheses close, and no section begins outside of them. -/
structure Passes (begins : Lexeme → Bool) (ls : List Lexeme) : Prop where
  balanced : IsBalanced (ls.filterMap parenthesis?)
  begun : ∀ l ∈ outside 0 ls, begins l = false

namespace Passes

variable {begins : Lexeme → Bool} {ls : List Lexeme}

theorem nil : Passes begins [] := ⟨rfl, fun _ h => nomatch h⟩

theorem singleton {l : Lexeme} (apart : l.parenthesis? = none) (h : begins l = false) :
    Passes begins [l] where
  balanced := by
    rw [List.filterMap_cons_none apart]
    rfl
  begun m hm := by
    have opens : l ≠ opening := by rintro rfl; cases apart
    have closes : l ≠ closing := by rintro rfl; cases apart
    rw [outside, if_neg opens, if_neg closes, if_pos rfl] at hm
    exact List.mem_singleton.1 hm ▸ h

theorem append {ks : List Lexeme} (h : Passes begins ls) (h' : Passes begins ks) :
    Passes begins (ls ++ ks) where
  balanced := by
    rw [IsBalanced, List.filterMap_append, h.balanced.depth]
    exact h'.balanced
  begun l hl := by
    rw [outside_append h.balanced, List.mem_append] at hl
    exact hl.elim (h.begun l) (h'.begun l)

theorem flatMap {α : Type} {xs : List α} {f : α → List Lexeme}
    (h : ∀ x ∈ xs, Passes begins (f x)) : Passes begins (xs.flatMap f) := by
  induction xs with
  | nil => exact nil
  | cons x xs ih =>
    exact (h x List.mem_cons_self).append (ih fun x hx => h x (List.mem_cons_of_mem _ hx))

variable (opens : begins opening = false) (closes : begins closing = false)
include opens closes

theorem sections (h : Passes begins ls) (rest : List Lexeme) :
    Lexeme.sections begins 0 (ls ++ rest) =
      (ls ++ (Lexeme.sections begins 0 rest).1, (Lexeme.sections begins 0 rest).2) :=
  sections_append opens closes h.balanced h.begun rest

theorem cut (h : Passes begins ls) (rest : List Lexeme) :
    Lexeme.cut begins (ls ++ rest) =
      (ls ++ (Lexeme.cut begins rest).1, (Lexeme.cut begins rest).2) := by
  rw [Lexeme.cut, h.sections opens closes]
  rfl

end Passes

/-- The word of a table that a lexeme is, in either case of its letters. -/
def wordIn? (table : List String) : Lexeme → Option String
  | word w =>
    let upper := String.ofList (w.toList.map Char.toUpper)
    if upper ∈ table then some upper else none
  | _ => none

def isWordOf (table : List String) (l : Lexeme) : Bool := (wordIn? table l).isSome

/-- Words of letters only are found in no case of digits and marks. -/
theorem toUpper_notMem {table : List String}
    (letters : ∀ w ∈ table, w.toList.head?.all Char.isAlpha = true) {c : Char}
    (h : c.isAlpha = false) (cs : List Char) :
    String.ofList ((String.ofList (c :: cs)).toList.map Char.toUpper) ∉ table := by
  intro mem
  have letter := letters _ mem
  simp [toUpper_eq h, h] at letter

/-- An operator, or marks that are none. -/
def isMark : Lexeme → Bool
  | operator _ | stray _ => true
  | _ => false

theorem isMark_ofMarks (cs : List Char) : (ofMarks cs).isMark = true := by
  have entries : ∀ entry ∈ operators, entry.2.isMark = true := by decide
  rw [ofMarks]
  cases found : operators.lookup (String.ofList cs) with
  | none => rfl
  | some l =>
    obtain ⟨before, after, eq, -⟩ := List.lookup_eq_some_iff.1 found
    exact entries (_, l) (eq ▸ List.mem_append_right _ List.mem_cons_self)

theorem parenthesis?_mark {l : Lexeme} (h : l.isMark = true) : l.parenthesis? = none := by
  cases l <;> first | rfl | cases h

end Lexeme

open Lexeme (picked)

theorem lexemesOf_balanced {xs : List Scanned} (h : IsBalanced (xs.filterMap Scanned.plain?)) :
    IsBalanced ((lexemesOf xs).filterMap Lexeme.parenthesis?) := by
  rwa [lexemesOf, parenthesis?_run, IsBalanced, parenDepth_filter]

theorem LexState.start_operator {c : Char} (h : isOperatorChar c = true) :
    LexState.start c = (.marks [c], []) := by
  simp only [isOperatorChar, List.contains_eq_mem, List.mem_cons, List.not_mem_nil, or_false,
    decide_eq_true_eq] at h
  rcases h with rfl | rfl | rfl | rfl | rfl | rfl | rfl | rfl | rfl | rfl <;> rfl

theorem lexemesOf_operatorChar {c : Char} (h : isOperatorChar c = true) (xs : List Scanned) :
    lexemesOf (.plain c :: xs) = run (.marks [c]) xs := by
  simp [lexemesOf, run, LexState.step, LexState.continues, LexState.flush,
    LexState.start_operator h]

/-! ### Written phrases -/

namespace Dialect

variable {d : Dialect}

theorem margin_balanced (hd : d.BuiltIn) : ∀ m ∈ d.quoteMargins, IsBalanced m.1.toList :=
  hd.of_databases (by decide) fun _ h => h

/-- The text of a phrase is read as it is written, up to the lexemes that raw texts begin with. -/
theorem lex_tame (hd : d.BuiltIn) {ts : List Token} (h : d.Phrase ts)
    (tame : ∀ t ∈ ts, t.IsTame) (n : Nat) :
    d.lex (String.join (d.texts n ts)) = some (lexemesOf (d.scanned n ts)) := by
  have scans : d.Scans n ts [] := scans_phrase hd h tame n nofun
  have text : (String.join (d.texts n ts)).toList = d.characters n ts := by
    rw [String.toList_join, texts_eq, List.flatMap_map, characters]
  rw [Scans, List.append_nil] at scans
  rw [lex, scan, text, scans]
  simp [scanFrom, ScanState.complete]

theorem lexemesOf_scanned_balanced (hd : d.BuiltIn) {ts : List Token} (h : d.Phrase ts)
    (tame : ∀ t ∈ ts, t.IsTame) (n : Nat) :
    IsBalanced ((lexemesOf (d.scanned n ts)).filterMap Lexeme.parenthesis?) := by
  have depth := depth_phrase hd h tame n 0 []
  rw [List.append_nil] at depth
  exact lexemesOf_balanced depth

end Dialect

/-- What is picked of an item on its own. -/
def Item.picked {α : Type} (pick : Lexeme → Option α) : Item → List α
  | .token (.word w) | .token (.verbatim w) => Lexeme.picked pick (lexemesOf (w.toList.map .plain))
  | .token (.symbol s) => if s = "," then (pick .comma).toList else []
  | _ => []

/-- Of what a dialect writes, only keywords, commas and raw texts have anything to pick. -/
structure Dialect.Picks (d : Dialect) {α : Type} (pick : Lexeme → Option α) : Prop where
  mark : ∀ l : Lexeme, l.isMark = true → pick l = none
  name : ∀ n, pick (.name n) = none
  text : ∀ s, pick (.text s) = none
  dot : pick .dot = none
  unlettered : ∀ c cs, c.isAlpha = false → pick (.word (String.ofList (c :: cs))) = none
  constants : ∀ w ∈ constantWords, picked pick (lexemesOf (w.toList.map .plain)) = []
  margins : ∀ m ∈ d.quoteMargins, picked pick (lexemesOf (m.1.toList.map .plain)) = [] ∧
    picked pick (lexemesOf (m.2.toList.map .plain)) = []

namespace Dialect.Picks

variable {d : Dialect} {α : Type} {pick : Lexeme → Option α} (picks : d.Picks pick)
include picks

omit picks in
theorem separated {xs rest : List Scanned} (separated : IsSeparated rest)
    (h : IsBalanced (xs.filterMap Scanned.plain?)) :
    picked pick (lexemesOf (xs ++ rest)) =
      picked pick (lexemesOf xs) ++ picked pick (lexemesOf rest) := by
  rw [lexemesOf_append separated, Lexeme.picked_append (lexemesOf_balanced h)]

/-- Marks that have begun make no difference to what is picked behind them. -/
theorem marks (ms : List Char) (xs : List Scanned) :
    picked pick (run (.marks ms) xs) = picked pick (lexemesOf xs) := by
  have flushed (ms : List Char) (ls : List Lexeme) :
      picked pick (.ofMarks ms :: ls) = picked pick ls :=
    have mark := Lexeme.isMark_ofMarks ms
    Lexeme.picked_silent (Lexeme.parenthesis?_mark mark) (picks.mark _ mark) ls
  induction xs generalizing ms with
  | nil => exact flushed ms []
  | cons x xs ih =>
    cases x with
    | name n => exact flushed ms _
    | text s => exact flushed ms _
    | plain c =>
      cases operator : isOperatorChar c with
      | true =>
        have more : run (.marks ms) (.plain c :: xs) = run (.marks (ms ++ [c])) xs := by
          simp [run, LexState.step, LexState.continues, LexState.extend, operator]
        rw [more, lexemesOf_operatorChar operator, ih, ih]
      | false =>
        have ends : run (.marks ms) (.plain c :: xs) = .ofMarks ms :: lexemesOf (.plain c :: xs) := by
          simp [lexemesOf, run, LexState.step, LexState.continues, LexState.flush, operator]
        rw [ends, flushed]

theorem operator {c : Char} (h : isOperatorChar c = true) (xs : List Scanned) :
    picked pick (lexemesOf (.plain c :: xs)) = picked pick (lexemesOf xs) := by
  rw [lexemesOf_operatorChar h, picks.marks]

theorem operators {cs : List Char} (h : cs.all isOperatorChar = true) (xs : List Scanned) :
    picked pick (lexemesOf (cs.map .plain ++ xs)) = picked pick (lexemesOf xs) := by
  induction cs with
  | nil => rfl
  | cons c cs ih =>
    rw [List.all_cons, Bool.and_eq_true] at h
    rw [List.map_cons, List.cons_append, picks.operator h.1, ih h.2]

theorem unsigned {cs : List Char} (h : IsUnsigned cs) :
    picked pick (lexemesOf (cs.map .plain)) = [] := by
  rcases h with ⟨w, hw, rfl⟩ | number
  · exact picks.constants w hw
  · rw [lexemesOf_number number]
    obtain ⟨mantissa, exponent, rfl, ⟨⟨c, hc, digit⟩, -⟩, -⟩ := number
    cases mantissa with
    | nil => cases hc
    | cons c' ms =>
      obtain rfl := Option.some.inj hc
      exact Lexeme.picked_silent rfl (picks.unlettered _ _ (not_isAlpha_of_isDigit digit)) []

theorem solid (hd : d.BuiltIn) {t : Token} (h : d.Solid t) (n : Nat) :
    picked pick (d.lexemes n [t]) = Item.picked pick (.token t) := by
  cases h with
  | word hw =>
    rw [lexemes_singleton]
    rfl
  | verbatim text =>
    rw [lexemes_singleton]
    rfl
  | name name =>
    rw [lexemes_name]
    exact Lexeme.picked_silent rfl (picks.name name) []
  | @bare text hb =>
    rw [lexemes_singleton]
    rcases hb with unsigned | ⟨cs, eq, unsigned⟩
    · exact picks.unsigned unsigned
    · show picked pick (lexemesOf (text.toList.map .plain)) = []
      rw [eq, List.map_cons, picks.operator (by decide), picks.unsigned unsigned]
  | @quoted lead tail content hm =>
    have balanced := margin_balanced hd _ hm
    obtain ⟨first, last⟩ := picks.margins _ hm
    have apart : IsSeparated (.text content :: tail.toList.map .plain) := nofun
    rw [← filterMap_plain lead.toList] at balanced
    rw [lexemes_singleton, scannedToken, separated apart balanced, lexemesOf_text,
      Lexeme.picked_silent rfl (picks.text content), first, last]
    rfl
  | placeholder b =>
    obtain ⟨cs, eq⟩ := placeholderText_head hd n
    have sign : d.placeholderSign.isAlpha = false := by cases hd <;> rfl
    have silent := picks.unlettered _ cs sign
    rw [← eq, String.ofList_toList] at silent
    rw [lexemes_placeholder hd]
    exact Lexeme.picked_silent rfl silent []

/-- In front of what is separated, a token is read on its own. -/
theorem single (hd : d.BuiltIn) {t : Token} (h : d.Solid t) (tame : t.IsTame) (n : Nat)
    {rest : List Scanned} (apart : IsSeparated rest) :
    picked pick (lexemesOf (d.scanned n [t] ++ rest)) =
      Item.picked pick (.token t) ++ picked pick (lexemesOf rest) := by
  have single : d.scanned n [t] = d.scannedToken (n, t) := by simp [scanned, Token.positioned]
  rw [separated apart (solid_balanced hd h tame n), single, ← lexemes_singleton, picks.solid hd h]

omit picks in
/-- Nothing is picked of what is enclosed. -/
theorem enclosed {n : Nat} {ts : List Token} (h : IsBalanced (d.openCharacters n ts))
    (closes : Token.Closes ts) (rest : List Scanned) :
    picked pick (lexemesOf (d.scanned n (Token.enclosed ts) ++ rest)) =
      (items (Token.enclosed ts)).flatMap (Item.picked pick) ++ picked pick (lexemesOf rest) := by
  have written : d.scanned n (Token.enclosed ts) ++ rest =
      .plain '(' :: (d.scanned n ts ++ Scanned.plain ')' :: rest) := by
    rw [Token.enclosed, List.cons_append, scanned_mark (c := '(') (by decide), scanned_append,
      scanned_mark (c := ')') (by decide)]
    simp
  have last : IsSeparated (.plain ')' :: rest) := isSeparated_plain (by simp) rest
  rw [written, lexemesOf_opening, lexemesOf_append last, lexemesOf_closing,
    Lexeme.picked_enclosed (lexemesOf_balanced h), Token.items_group closes]
  rfl

/-- In front of what is separated, the phrase has picked what its items have. -/
theorem phrase (hd : d.BuiltIn) {ts : List Token} (h : d.Phrase ts) (tame : ∀ t ∈ ts, t.IsTame)
    (n : Nat) {rest : List Scanned} (apart : IsSeparated rest) :
    picked pick (lexemesOf (d.scanned n ts ++ rest)) =
      (items ts).flatMap (Item.picked pick) ++ picked pick (lexemesOf rest) := by
  have plain {t : Token} (h : t.isPlain = true) (ts : List Token) :
      (items (t :: ts)).flatMap (Item.picked pick) =
        Item.picked pick (.token t) ++ (items ts).flatMap (Item.picked pick) := by
    rw [Token.items_plain h, List.flatMap_cons]
  induction h generalizing n rest with
  | solid h =>
    rw [picks.single hd h (tame _ List.mem_cons_self) n apart, plain h.isPlain]
    simp
  | @operator s h =>
    have spelling : ∀ s ∈ operatorSpellings, s ≠ "," ∧ (Token.symbol s).isPlain = true ∧
        s.toList.all isOperatorChar = true := by decide
    obtain ⟨other, isPlain, operator⟩ := spelling s h
    have scanned : d.scanned n [.symbol s] = s.toList.map .plain := by
      simp [scanned, Token.positioned, scannedToken, tokenText]
    rw [scanned, picks.operators operator, plain isPlain, Item.picked, if_neg other]
    rfl
  | @owned owner ts h ih =>
    have inner := (List.forall_mem_cons.1 (List.forall_mem_cons.1 tame).2).2
    have scanned : d.scanned n (.name owner :: .symbol "." :: ts) =
        .name owner :: .plain '.' :: d.scanned n ts := by
      rw [scanned_cons, show Token.after n [.name owner] = n from rfl,
        scanned_mark (c := '.') (by decide)]
      rfl
    rw [scanned, List.cons_append, List.cons_append, lexemesOf_name, lexemesOf_point,
      Lexeme.picked_silent rfl (picks.name owner), Lexeme.picked_silent rfl picks.dot,
      ih inner n apart, plain rfl, plain (by decide)]
    rfl
  | @negated ts h unmarked ih =>
    -- a raw text may begin with marks that join with the sign: the lexemes of it are others then
    rw [scanned_mark (c := '-') (by decide), List.cons_append, picks.operator (by decide),
      ih (List.forall_mem_cons.1 tame).2 n apart, plain (by decide)]
    rfl
  | empty =>
    have none : IsBalanced (d.openCharacters n []) := rfl
    exact enclosed none .nil rest
  | @enclosed ts h ih =>
    have inside := (List.forall_mem_append.1 (List.forall_mem_cons.1 tame).2).1
    have depth := depth_phrase hd h inside n 0 []
    rw [List.append_nil] at depth
    exact enclosed depth h.closes rest
  | @called t ts h arguments ih =>
    obtain ⟨head, inner⟩ := List.forall_mem_cons.1 tame
    have next : IsSeparated (d.scanned (Token.after n [t]) (Token.enclosed ts) ++ rest) := by
      rw [Token.enclosed, List.cons_append, scanned_mark (c := '(') (by decide)]
      exact isSeparated_plain (by simp) _
    rw [← List.singleton_append, scanned_append, List.append_assoc,
      picks.single hd h head n next, ih inner _ apart, List.singleton_append, plain h.isPlain,
      List.append_assoc]
  | @spaced a b ha hb iha ihb =>
    obtain ⟨left, right⟩ := List.forall_mem_append.1 tame
    have next : IsSeparated (.plain ' ' :: (d.scanned (Token.after n a) b ++ rest)) :=
      isSeparated_plain (by simp) _
    rw [scanned_append, scanned_space, List.append_assoc, List.cons_append, iha left n next,
      lexemesOf_blank, ihb (List.forall_mem_cons.1 right).2 _ apart, ha.closes.apart,
      Token.items_space, List.flatMap_append, List.append_assoc]
  | @listed a b ha hb iha ihb =>
    obtain ⟨left, right⟩ := List.forall_mem_append.1 tame
    have right := (List.forall_mem_cons.1 (List.forall_mem_cons.1 right).2).2
    have next : IsSeparated
        (.plain ',' :: .plain ' ' :: (d.scanned (Token.after n a) b ++ rest)) :=
      isSeparated_plain (by simp) _
    rw [scanned_append, scanned_mark (c := ',') (by decide), scanned_space, List.append_assoc,
      List.cons_append, List.cons_append, iha left n next, lexemesOf_comma, lexemesOf_blank,
      Lexeme.picked_cons rfl, ihb right _ apart, ha.closes.apart, List.flatMap_append,
      plain (by decide), Token.items_space, List.append_assoc, Item.picked, if_pos rfl]
    simp

end Dialect.Picks

end SelectCompiler
