import SelectCompiler.Proofs.Reader.Machine

/-!
The reader with `ESCAPE`. Behind the pattern of a `LIKE` the word takes the whole test for its left
operand and waits for the other one, which binds as tightly as a pattern. Everywhere else the reader
steps as it does without the word.
-/

namespace SelectCompiler

/-- A test in front of `ESCAPE`. No text has a call with a keyword for its name. -/
def Reading.escaping (test : Reading) : Reading := .call [.keyword .escape] [test]

def Reading.isEscaping : Reading → Bool
  | .call [.keyword .escape] _ => true
  | _ => false

namespace ReadState

/-- `ESCAPE` behind an operand: this must be the pattern of a `LIKE` that has no escape yet. -/
def escape (r : Reading) (k : Nat) (ps : List Pending) (outer : List (Bracket × List Pending)) :
    Option ReadState :=
  match settle 5 r k ps with
  | (pattern, k, .like item negated :: ps) =>
    if 5 ≤ k ∧ item.isEscaping = false then
      some ⟨.operand, .like (.escaping (.like item pattern negated)) false :: ps, outer⟩
    else none
  | _ => none

def stepWith (escapes : Bool) : ReadState → Lexeme → Option ReadState
  | ⟨.atom ls, ps, outer⟩, .keyword .escape => if escapes then escape (.atom ls) 9 ps outer else none
  | ⟨.ended r k, ps, outer⟩, .keyword .escape => if escapes then escape r k ps outer else none
  | state, l => state.step l

def runWith (escapes : Bool) : ReadState → List Lexeme → Option Reading
  | state, [] => state.finish
  | state, l :: ls => (state.stepWith escapes l).bind (runWith escapes · ls)

variable {escapes : Bool} {ps : List Pending} {outer : List (Bracket × List Pending)} {l : Lexeme}

/-! ### Steps as before -/

theorem stepWith_of_ne (h : l ≠ .keyword .escape) (state : ReadState) :
    state.stepWith escapes l = state.step l := by
  unfold stepWith
  split
  · exact absurd rfl h
  · exact absurd rfl h
  · rfl

theorem stepWith_operand : stepWith escapes ⟨.operand, ps, outer⟩ l = begin ps outer l := rfl

theorem stepWith_opened : stepWith escapes ⟨.opened, ps, outer⟩ l = step ⟨.opened, ps, outer⟩ l := rfl

theorem stepWith_cased : stepWith escapes ⟨.cased, ps, outer⟩ l = step ⟨.cased, ps, outer⟩ l := rfl

theorem stepWith_expecting {b : Bracket} :
    stepWith escapes ⟨.expecting b, ps, outer⟩ l = step ⟨.expecting b, ps, outer⟩ l := rfl

theorem stepWith_skipping {depth : Nat} {ls : List Lexeme} :
    stepWith escapes ⟨.skipping depth ls, ps, outer⟩ l = step ⟨.skipping depth ls, ps, outer⟩ l :=
  rfl

theorem stepWith_false (state : ReadState) (l : Lexeme) : state.stepWith false l = state.step l := by
  unfold stepWith
  split
  · rfl
  · rfl
  · rfl

theorem runWith_false (state : ReadState) (ls : List Lexeme) :
    state.runWith false ls = state.run ls := by
  induction ls generalizing state with
  | nil => rfl
  | cons l ls ih => simp only [runWith, run, stepWith_false, ih]

end ReadState

def Dialect.readWithEscapes (d : Dialect) (text : String) : Option Reading :=
  (d.lex text).bind (ReadState.runWith true ⟨.operand, [], []⟩)

/-- An escape that binds less tightly than a pattern does not stay together. -/
example :
    let name (n : String) : Reading := .atom [.name n]
    let test : Reading := .escaping (.like (name "a") (name "b") true)
    Dialect.postgres.readWithEscapes "\"a\" NOT LIKE \"b\" ESCAPE \"c\" || \"e\"" =
        some (.like test (.binary (name "c") .concat (name "e")) false) ∧
      Dialect.postgres.readWithEscapes "\"a\" NOT LIKE \"b\" ESCAPE \"c\" OR \"e\"" =
        some (.binary (.like test (name "c") false) .or (name "e")) :=
  ⟨rfl, rfl⟩

end SelectCompiler
