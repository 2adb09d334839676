import SelectCompiler.Proofs.Text.Scanning
import SelectCompiler.Text.Blank

/-!
Lexemes: the quoted names and texts of a scanned text, and its words, numbers and marks. Main
statement: a text that separates its parts is read part by part.
-/

namespace SelectCompiler

inductive Keyword where
  | not
  | is
  | null
  | in
  | like
  | escape
  | case
  | when
  | then
  | else
  | end
  | cast
  | as
  | exists
  | select
deriving DecidableEq

inductive Lexeme where
  | name (n : String)
  | text (s : String)
  /-- A number, a placeholder or a word that is not reserved. -/
  | word (w : String)
  | keyword (k : Keyword)
  | operator (op : BinaryOp)
  | dot
  | opening
  | closing
  | comma
  /-- Marks that are no operator. -/
  | stray (s : String)
deriving DecidableEq

namespace Lexeme

def reserved : List (String × Lexeme) :=
  [("AND", operator .and), ("OR", operator .or), ("NOT", keyword .not), ("IS", keyword .is),
    ("NULL", keyword .null), ("IN", keyword .in), ("LIKE", keyword .like),
    ("ESCAPE", keyword .escape), ("CASE", keyword .case), ("WHEN", keyword .when),
    ("THEN", keyword .then), ("ELSE", keyword .else), ("END", keyword .end),
    ("CAST", keyword .cast), ("AS", keyword .as), ("EXISTS", keyword .exists),
    ("SELECT", keyword .select)]

def operators : List (String × Lexeme) :=
  [("+", operator .add), ("-", operator .subtract), ("*", operator .multiply),
    ("/", operator .divide), ("%", operator .modulo), ("||", operator .concat),
    ("=", operator .equal), ("<>", operator .notEqual), ("<", operator .lessThan),
    ("<=", operator .lessThanOrEqual), (">", operator .greaterThan),
    (">=", operator .greaterThanOrEqual), ("&", operator .bitwiseAnd),
    ("|", operator .bitwiseOr)]

/-- The word of some characters; letters count the same in both cases. -/
def ofWord (cs : List Char) : Lexeme :=
  (reserved.lookup (String.ofList (cs.map Char.toUpper))).getD (word (String.ofList cs))

def ofMarks (cs : List Char) : Lexeme :=
  (operators.lookup (String.ofList cs)).getD (stray (String.ofList cs))

end Lexeme

def isOperatorChar (c : Char) : Bool :=
  ['+', '-', '*', '/', '%', '|', '=', '<', '>', '&'].contains c

/-- The marks that never join with others. -/
def singleMark : Char → Option Lexeme
  | '(' => some .opening
  | ')' => some .closing
  | ',' => some .comma
  | _ => none

def isWordChar (c : Char) : Bool :=
  !isBlank c && !isOperatorChar c && (singleMark c).isNone && c != '.'

inductive LexState where
  | idle
  | word (cs : List Char)
  | marks (cs : List Char)

namespace LexState

def flush : LexState → List Lexeme
  | idle => []
  | word cs => [.ofWord cs]
  | marks cs => [.ofMarks cs]

/-- Whether a character goes on with what has begun. A number may have a point and the sign of an
exponent inside. -/
def continues : LexState → Char → Bool
  | idle, _ => false
  | word cs, c =>
    isWordChar c || (cs.head?.any Char.isDigit &&
      (c == '.' || ((c == '-' || c == '+') && cs.getLast? == some 'e')))
  | marks _, c => isOperatorChar c

def extend : LexState → Char → LexState
  | idle, _ => idle
  | word cs, c => word (cs ++ [c])
  | marks cs, c => marks (cs ++ [c])

/-- What a character begins, and what it is by itself. -/
def start (c : Char) : LexState × List Lexeme :=
  if isBlank c then (idle, [])
  else
    match singleMark c with
    | some l => (idle, [l])
    | none =>
      if c = '.' then (idle, [.dot])
      else if isOperatorChar c then (marks [c], [])
      else (word [c], [])

def step (state : LexState) : Scanned → LexState × List Lexeme
  | .name n => (idle, state.flush ++ [.name n])
  | .text s => (idle, state.flush ++ [.text s])
  | .plain c =>
    if state.continues c then (state.extend c, [])
    else ((start c).1, state.flush ++ (start c).2)

def run : LexState → List Scanned → List Lexeme
  | state, [] => state.flush
  | state, x :: xs => (state.step x).2 ++ run (state.step x).1 xs

end LexState

open LexState (run)

def lexemesOf (xs : List Scanned) : List Lexeme := run .idle xs

def Dialect.lex (d : Dialect) (text : String) : Option (List Lexeme) :=
  (d.scan text).map lexemesOf

/-! ### Parts of a text -/

/-- Nothing that stands before goes on here. -/
def IsSeparated (xs : List Scanned) : Prop :=
  ∀ c, xs.head? = some (.plain c) → ∀ state : LexState, state.continues c = false

theorem run_separated {xs : List Scanned} (h : IsSeparated xs) (state : LexState) :
    run state xs = state.flush ++ lexemesOf xs := by
  cases xs with
  | nil => simp [run, lexemesOf, LexState.flush]
  | cons x xs =>
    cases x with
    | name n => simp [run, lexemesOf, LexState.step, LexState.flush]
    | text s => simp [run, lexemesOf, LexState.step, LexState.flush]
    | plain c =>
      have none := h c rfl
      simp [run, lexemesOf, LexState.step, LexState.flush, none]

theorem run_append {rest : List Scanned} (h : IsSeparated rest) (state : LexState)
    (xs : List Scanned) : run state (xs ++ rest) = run state xs ++ lexemesOf rest := by
  induction xs generalizing state with
  | nil => exact run_separated h state
  | cons x xs ih => rw [List.cons_append, run, run, ih, List.append_assoc]

theorem lexemesOf_append {rest : List Scanned} (h : IsSeparated rest) (xs : List Scanned) :
    lexemesOf (xs ++ rest) = lexemesOf xs ++ lexemesOf rest :=
  run_append h .idle xs

theorem isSeparated_nil : IsSeparated [] := fun _ h => nomatch h

theorem isSeparated_plain {c : Char} (h : c = ' ' ∨ c = ',' ∨ c = '(' ∨ c = ')')
    (xs : List Scanned) : IsSeparated (.plain c :: xs) := by
  rintro _ ⟨⟩ state
  have inWord : isWordChar c = false := by rcases h with rfl | rfl | rfl | rfl <;> decide
  have inNumber : (c == '.' || (c == '-' || c == '+')) = false := by
    rcases h with rfl | rfl | rfl | rfl <;> decide
  have inMarks : isOperatorChar c = false := by rcases h with rfl | rfl | rfl | rfl <;> decide
  rw [Bool.or_eq_false_iff] at inNumber
  cases state with
  | idle => rfl
  | word cs => simp [LexState.continues, inWord, inNumber]
  | marks cs => exact inMarks

end SelectCompiler
