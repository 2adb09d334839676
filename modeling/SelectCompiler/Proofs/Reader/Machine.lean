import SelectCompiler.Proofs.Text.Words

/-!
Reading expressions. The reader takes the lexemes of a text one after the other. It knows the ranks
of the operators and nothing about how texts are written: operators are kept until one of lower rank
follows, and brackets until they close.
-/

namespace SelectCompiler

/-- An expression as its text says it. Blocks in parentheses stay lexemes. -/
inductive Reading where
  | atom (lexemes : List Lexeme)
  | not (operand : Reading)
  | negate (operand : Reading)
  | isNull (operand : Reading) (negated : Bool)
  | binary (left : Reading) (op : BinaryOp) (right : Reading)
  | cast (operand : Reading) (target : List Lexeme)
  | call (head : List Lexeme) (arguments : List Reading)
  | subquery (block : List Lexeme)
  | exists (block : List Lexeme)
  | inList (item : Reading) (values : List Reading) (negated : Bool)
  | inSelect (item : Reading) (block : List Lexeme) (negated : Bool)
  | like (item pattern : Reading) (negated : Bool)
  | case (operand : Option Reading) (whens : List (Reading × Reading))
      (otherwise : Option Reading)

/-- An operator whose right operand is still being read. -/
inductive Pending where
  | binary (left : Reading) (op : BinaryOp)
  | not
  | negate
  | like (item : Reading) (negated : Bool)

namespace Pending

def rank : Pending → Nat
  | binary _ op => op.rank
  | not => 3
  | negate => 8
  | like _ _ => 4

/-- The lowest rank that the operand may have. -/
def demand : Pending → Nat
  | binary _ op => op.rank + 1
  | not => 3
  | negate => 8
  | like _ _ => 5

def build : Pending → Reading → Reading
  | binary left op, r => .binary left op r
  | not, r => .not r
  | negate, r => .negate r
  | like item negated, r => .like item r negated

end Pending

/-- What is open around an operand. -/
inductive Bracket where
  | group
  | call (head : List Lexeme) (arguments : List Reading)
  | cast
  | target (operand : Reading)
  | exists
  | inList (item : Reading) (values : List Reading) (negated : Bool)
  | caseOperand
  | caseWhen (operand : Option Reading) (whens : List (Reading × Reading))
  | caseThen (operand : Option Reading) (whens : List (Reading × Reading)) (condition : Reading)
  | caseElse (operand : Option Reading) (whens : List (Reading × Reading))

/-- How a bracket goes on after an operand. -/
inductive Turn where
  | operand (b : Bracket)
  | block (b : Bracket)
  | done (r : Reading) (rank : Nat)

namespace Bracket

def turn : Bracket → Reading → Lexeme → Option Turn
  | group, r, .closing => some (.done r 9)
  | call head rs, r, .comma => some (.operand (call head (rs ++ [r])))
  | call head rs, r, .closing => some (.done (.call head (rs ++ [r])) 9)
  | cast, r, .keyword .as => some (.block (target r))
  | inList item rs negated, r, .comma => some (.operand (inList item (rs ++ [r]) negated))
  | inList item rs negated, r, .closing => some (.done (.inList item (rs ++ [r]) negated) 4)
  | caseOperand, r, .keyword .when => some (.operand (caseWhen (some r) []))
  | caseWhen operand whens, r, .keyword .then => some (.operand (caseThen operand whens r))
  | caseThen operand whens c, r, .keyword .when =>
    some (.operand (caseWhen operand (whens ++ [(c, r)])))
  | caseThen operand whens c, r, .keyword .else =>
    some (.operand (caseElse operand (whens ++ [(c, r)])))
  | caseThen operand whens c, r, .keyword .end =>
    some (.done (.case operand (whens ++ [(c, r)]) none) 9)
  | caseElse operand whens, r, .keyword .end => some (.done (.case operand whens (some r)) 9)
  | _, _, _ => none

/-- What a bracket with a block or the target of a cast inside is, and its rank. -/
def enclose : Bracket → List Lexeme → Option (Reading × Nat)
  | group, block => some (.subquery block, 9)
  | .exists, block => some (.exists block, 9)
  | inList item [] negated, block => some (.inSelect item block negated, 4)
  | target r, block => some (.cast r block, 9)
  | _, _ => none

end Bracket

namespace Lexeme

/-- The rank with which a lexeme goes on after an operand; whatever ends the operand has rank 0. -/
def reach : Lexeme → Option Nat
  | operator op => some op.rank
  | keyword .is | keyword .not | keyword .in | keyword .like => some 4
  | closing | comma | keyword .as | keyword .when | keyword .then | keyword .else
  | keyword .end => some 0
  | _ => none

end Lexeme

/-- The lowest rank of a left operand; comparisons do not chain. -/
def BinaryOp.leftDemand (op : BinaryOp) : Nat := if op.isComparison then 5 else op.rank

inductive Phase where
  | operand
  /-- Directly after an opening parenthesis. -/
  | opened
  /-- Directly after `CASE`. -/
  | cased
  | atom (lexemes : List Lexeme)
  | ended (r : Reading) (rank : Nat)
  /-- Before an opening parenthesis. -/
  | expecting (b : Bracket)
  | is (r : Reading) (negated : Bool)
  | negated (r : Reading)
  | skipping (depth : Nat) (lexemes : List Lexeme)

/-- Where the reader stands, with the operators since the innermost open bracket. -/
structure ReadState where
  phase : Phase
  pending : List Pending
  outer : List (Bracket × List Pending)

namespace ReadState

/-- The state after a bracket had its turn. -/
def ofTurn (ps : List Pending) (outer : List (Bracket × List Pending)) : Turn → ReadState
  | .operand b => ⟨.operand, [], (b, ps) :: outer⟩
  | .block b => ⟨.skipping 0 [], [], (b, ps) :: outer⟩
  | .done r k => ⟨.ended r k, ps, outer⟩

def demand : List Pending → Nat
  | [] => 0
  | p :: _ => p.demand

/-- Gives pending operators their operand, down to the first of a lower rank. -/
def settle (q : Nat) : Reading → Nat → List Pending → Reading × Nat × List Pending
  | r, k, [] => (r, k, [])
  | r, k, p :: ps => if q ≤ p.rank then settle q (p.build r) p.rank ps else (r, k, p :: ps)

def begin (ps : List Pending) (outer : List (Bracket × List Pending)) : Lexeme → Option ReadState
  | .keyword .not => if demand ps ≤ 3 then some ⟨.operand, .not :: ps, outer⟩ else none
  | .operator .subtract => some ⟨.operand, .negate :: ps, outer⟩
  | .keyword .cast => some ⟨.expecting .cast, ps, outer⟩
  | .keyword .exists => some ⟨.expecting .exists, ps, outer⟩
  | .keyword .case => some ⟨.cased, ps, outer⟩
  | .opening => some ⟨.opened, [], (.group, ps) :: outer⟩
  | l => if l.isAtomic then some ⟨.atom [l], ps, outer⟩ else none

def goOn (r : Reading) (k : Nat) (ps : List Pending) (outer : List (Bracket × List Pending)) :
    Lexeme → Option ReadState
  | .operator op =>
    if op.leftDemand ≤ k then some ⟨.operand, .binary r op :: ps, outer⟩ else none
  | .keyword .is => if 5 ≤ k then some ⟨.is r false, ps, outer⟩ else none
  | .keyword .not => if 5 ≤ k then some ⟨.negated r, ps, outer⟩ else none
  | .keyword .in => if 5 ≤ k then some ⟨.expecting (.inList r [] false), ps, outer⟩ else none
  | .keyword .like => if 5 ≤ k then some ⟨.operand, .like r false :: ps, outer⟩ else none
  | l =>
    match outer with
    | [] => none
    | (b, ps) :: outer => (b.turn r l).map (ofTurn ps outer)

def afterOperand (r : Reading) (k : Nat) (ps : List Pending)
    (outer : List (Bracket × List Pending)) (l : Lexeme) : Option ReadState :=
  match l.reach with
  | some q =>
    match settle q r k ps with
    | (r, k, ps) => goOn r k ps outer l
  | none => none

def step : ReadState → Lexeme → Option ReadState
  | ⟨.operand, ps, outer⟩, l => begin ps outer l
  | ⟨.opened, _, (.call head [], ps) :: outer⟩, .closing =>
    some ⟨.ended (.call head []) 9, ps, outer⟩
  | ⟨.opened, _, (b, ps) :: outer⟩, .keyword .select =>
    if (b.enclose []).isSome then some ⟨.skipping 0 [.keyword .select], [], (b, ps) :: outer⟩
    else none
  | ⟨.opened, ps, outer⟩, l => begin ps outer l
  | ⟨.cased, ps, outer⟩, .keyword .when => some ⟨.operand, [], (.caseWhen none [], ps) :: outer⟩
  | ⟨.cased, ps, outer⟩, l => begin [] ((.caseOperand, ps) :: outer) l
  | ⟨.atom ls, ps, outer⟩, .opening => some ⟨.opened, [], (.call ls [], ps) :: outer⟩
  | ⟨.atom ls, ps, outer⟩, l =>
    if l.isAtomic then some ⟨.atom (ls ++ [l]), ps, outer⟩
    else afterOperand (.atom ls) 9 ps outer l
  | ⟨.ended r k, ps, outer⟩, l => afterOperand r k ps outer l
  | ⟨.expecting b, ps, outer⟩, .opening => some ⟨.opened, [], (b, ps) :: outer⟩
  | ⟨.expecting _, _, _⟩, _ => none
  | ⟨.is r false, ps, outer⟩, .keyword .not => some ⟨.is r true, ps, outer⟩
  | ⟨.is r negated, ps, outer⟩, .keyword .null => some ⟨.ended (.isNull r negated) 4, ps, outer⟩
  | ⟨.is _ _, _, _⟩, _ => none
  | ⟨.negated r, ps, outer⟩, .keyword .in => some ⟨.expecting (.inList r [] true), ps, outer⟩
  | ⟨.negated r, ps, outer⟩, .keyword .like => some ⟨.operand, .like r true :: ps, outer⟩
  | ⟨.negated _, _, _⟩, _ => none
  | ⟨.skipping depth ls, ps, outer⟩, .opening =>
    some ⟨.skipping (depth + 1) (ls ++ [.opening]), ps, outer⟩
  | ⟨.skipping (depth + 1) ls, ps, outer⟩, .closing =>
    some ⟨.skipping depth (ls ++ [.closing]), ps, outer⟩
  | ⟨.skipping 0 ls, _, (b, ps) :: outer⟩, .closing =>
    match b.enclose ls with
    | some (r, k) => some ⟨.ended r k, ps, outer⟩
    | none => none
  | ⟨.skipping 0 _, _, []⟩, .closing => none
  | ⟨.skipping depth ls, ps, outer⟩, l => some ⟨.skipping depth (ls ++ [l]), ps, outer⟩

/-- At the end of the text all brackets must be closed. -/
def finish : ReadState → Option Reading
  | ⟨.atom ls, ps, []⟩ => some (settle 0 (.atom ls) 9 ps).1
  | ⟨.ended r k, ps, []⟩ => some (settle 0 r k ps).1
  | _ => none

def run : ReadState → List Lexeme → Option Reading
  | state, [] => state.finish
  | state, l :: ls => (state.step l).bind (run · ls)

end ReadState

def Dialect.read (d : Dialect) (text : String) : Option Reading :=
  (d.lex text).bind (ReadState.run ⟨.operand, [], []⟩)

end SelectCompiler
