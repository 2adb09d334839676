import SelectCompiler.Proofs.Reader.Machine

/-!
Readers with other ranks. They all rank products above sums and every value operator between the
comparisons and the sign; where `||`, `&` and `|` stand among the value operators is up to them.
Main statement: the reader with the usual ranks is one of these.
-/

namespace SelectCompiler

/-- The ranks that a reader gives to the operators. -/
structure Ranking where
  rank : BinaryOp → Nat
  /-- The rank of the sign in front of an operand. -/
  sign : Nat
  agreed : ∀ op, op.isValueOperator = false → rank op = op.rank
  between : ∀ op, op.isValueOperator = true → 4 < rank op ∧ rank op < sign
  sums : rank .subtract = rank .add
  quotients : rank .divide = rank .multiply
  remainders : rank .modulo = rank .multiply
  products : rank .add < rank .multiply

namespace Ranking

def usual : Ranking where
  rank := BinaryOp.rank
  sign := 8
  agreed _ _ := rfl
  between op h := ⟨of_decide_eq_true h, by cases op <;> decide⟩
  sums := rfl
  quotients := rfl
  remainders := rfl
  products := by decide

/-- Strings are joined before anything else is computed. -/
def concatFirst : Ranking where
  rank
    | .concat => 8
    | op => op.rank
  sign := 9
  agreed op h := by cases op <;> first | rfl | cases h
  between op h := by cases op <;> first | decide | cases h
  sums := rfl
  quotients := rfl
  remainders := rfl
  products := by decide

variable (R : Ranking)

/-- The lowest rank of a left operand; comparisons do not chain. -/
def leftDemand (op : BinaryOp) : Nat := if op.isComparison then 5 else R.rank op

def pendingRank : Pending → Nat
  | .binary _ op => R.rank op
  | .negate => R.sign
  | p => p.rank

/-- The rank with which a lexeme goes on after an operand. -/
def reach : Lexeme → Option Nat
  | .operator op => some (R.rank op)
  | l => l.reach

/-- What stands on its own binds tighter than the sign. -/
def operandRank (k : Nat) : Nat := if k = 9 then R.sign + 1 else k

/-- Gives pending operators their operand, down to the first of a lower rank. -/
def settle (q : Nat) : Reading → Nat → List Pending → Reading × Nat × List Pending
  | r, k, [] => (r, k, [])
  | r, k, p :: ps =>
    if q ≤ R.pendingRank p then settle q (p.build r) (R.pendingRank p) ps else (r, k, p :: ps)

def goOn (r : Reading) (k : Nat) (ps : List Pending) (outer : List (Bracket × List Pending)) :
    Lexeme → Option ReadState
  | .operator op =>
    if R.leftDemand op ≤ k then some ⟨.operand, .binary r op :: ps, outer⟩ else none
  | l => ReadState.goOn r k ps outer l

def afterOperand (r : Reading) (k : Nat) (ps : List Pending)
    (outer : List (Bracket × List Pending)) (l : Lexeme) : Option ReadState :=
  match R.reach l with
  | some q =>
    match R.settle q r (R.operandRank k) ps with
    | (r, k, ps) => R.goOn r k ps outer l
  | none => none

/-- Ranks matter only behind an operand. -/
def step : ReadState → Lexeme → Option ReadState
  | ⟨.atom ls, ps, outer⟩, l =>
    if l = .opening ∨ l.isAtomic then ReadState.step ⟨.atom ls, ps, outer⟩ l
    else R.afterOperand (.atom ls) 9 ps outer l
  | ⟨.ended r k, ps, outer⟩, l => R.afterOperand r k ps outer l
  | state, l => state.step l

def run : ReadState → List Lexeme → Option Reading
  | state, [] => state.finish
  | state, l :: ls => (R.step state l).bind (run · ls)

end Ranking

/-- Reads a text with other ranks. -/
def Dialect.readBy (d : Dialect) (R : Ranking) (text : String) : Option Reading :=
  (d.lex text).bind (R.run ⟨.operand, [], []⟩)

/-! ### The usual ranks -/

namespace Ranking

theorem usual_settle (q : Nat) (r : Reading) (k : Nat) (ps : List Pending) :
    usual.settle q r k ps = ReadState.settle q r k ps := by
  induction ps generalizing r k with
  | nil => rfl
  | cons p ps ih =>
    have rank : usual.pendingRank p = p.rank := by cases p <;> rfl
    rw [settle, ReadState.settle, rank, ih]

theorem usual_afterOperand (r : Reading) (k : Nat) (ps : List Pending)
    (outer : List (Bracket × List Pending)) (l : Lexeme) :
    usual.afterOperand r k ps outer l = ReadState.afterOperand r k ps outer l := by
  have reach : usual.reach l = l.reach := by cases l <;> rfl
  have operand : usual.operandRank k = k := by
    unfold operandRank
    split
    · rename_i nine
      exact nine.symm
    · rfl
  have goOn (r : Reading) (k : Nat) (ps : List Pending) :
      usual.goOn r k ps outer l = ReadState.goOn r k ps outer l := by
    cases l <;> rfl
  rw [afterOperand, ReadState.afterOperand, reach, operand]
  cases l.reach with
  | none => rfl
  | some q => simp only [usual_settle, goOn]

theorem usual_step (state : ReadState) (l : Lexeme) : usual.step state l = state.step l := by
  obtain ⟨phase, ps, outer⟩ := state
  cases phase with
  | atom ls =>
    rw [step, usual_afterOperand]
    split
    · rfl
    · rename_i other
      rw [not_or] at other
      cases l with
      | opening => exact absurd rfl other.1
      | _ => simp [ReadState.step, other.2]
  | ended r k => exact usual_afterOperand r k ps outer l
  | _ => rfl

theorem usual_run (state : ReadState) (ls : List Lexeme) : usual.run state ls = state.run ls := by
  induction ls generalizing state with
  | nil => rfl
  | cons l ls ih => simp only [run, ReadState.run, usual_step, ih]

end Ranking

theorem Dialect.readBy_usual (d : Dialect) (text : String) :
    d.readBy .usual text = d.read text := by
  simp only [readBy, read, funext (Ranking.usual_run _)]

/-- Without parentheses the ranks matter. -/
example :
    let sum (l r : Reading) : Reading := .binary l .add r
    let chain (l r : Reading) : Reading := .binary l .concat r
    let name (n : String) : Reading := .atom [.name n]
    Dialect.postgres.read "\"a\" + \"b\" || \"c\"" =
        some (chain (sum (name "a") (name "b")) (name "c")) ∧
      Dialect.postgres.readBy .concatFirst "\"a\" + \"b\" || \"c\"" =
        some (sum (name "a") (chain (name "b") (name "c"))) :=
  ⟨rfl, rfl⟩

end SelectCompiler
