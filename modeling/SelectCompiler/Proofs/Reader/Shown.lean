import SelectCompiler.Proofs.Reader.Machine

/-!
Plus signs in place of `||`. A dialect that joins strings by a plus sign has texts in which each
concatenation is shown as a sum.
-/

namespace SelectCompiler

def Lexeme.shown (plus : Bool) : Lexeme → Lexeme
  | operator op => operator (op.shown plus)
  | l => l

mutual

/-- The reading with other operators on it. -/
def Reading.shown (plus : Bool) : Reading → Reading
  | .atom ls => .atom ls
  | .not r => .not (r.shown plus)
  | .negate r => .negate (r.shown plus)
  | .isNull r negated => .isNull (r.shown plus) negated
  | .binary l op r => .binary (l.shown plus) (op.shown plus) (r.shown plus)
  | .cast r target => .cast (r.shown plus) target
  | .call head rs => .call head (Reading.shownEach plus rs)
  | .subquery block => .subquery block
  | .exists block => .exists block
  | .inList r rs negated => .inList (r.shown plus) (Reading.shownEach plus rs) negated
  | .inSelect r block negated => .inSelect (r.shown plus) block negated
  | .like r p negated => .like (r.shown plus) (p.shown plus) negated
  | .case operand whens otherwise =>
    .case
      (match operand with
        | some r => some (r.shown plus)
        | none => none)
      (Reading.shownWhens plus whens)
      (match otherwise with
        | some r => some (r.shown plus)
        | none => none)

def Reading.shownEach (plus : Bool) : List Reading → List Reading
  | [] => []
  | r :: rs => r.shown plus :: Reading.shownEach plus rs

def Reading.shownWhens (plus : Bool) : List (Reading × Reading) → List (Reading × Reading)
  | [] => []
  | (c, r) :: ws => (c.shown plus, r.shown plus) :: Reading.shownWhens plus ws

end

theorem Reading.shownEach_eq (plus : Bool) (rs : List Reading) :
    shownEach plus rs = rs.map (shown plus) := by
  induction rs with
  | nil => rfl
  | cons r rs ih => rw [shownEach, ih, List.map_cons]

theorem Reading.shownWhens_eq (plus : Bool) (ws : List (Reading × Reading)) :
    shownWhens plus ws = ws.map fun w => (w.1.shown plus, w.2.shown plus) := by
  induction ws with
  | nil => rfl
  | cons w ws ih => rw [shownWhens, ih, List.map_cons]

theorem Reading.case_shown (plus : Bool) (operand : Option Reading)
    (whens : List (Reading × Reading)) (otherwise : Option Reading) :
    (Reading.case operand whens otherwise).shown plus =
      .case (operand.map (shown plus)) (whens.map fun w => (w.1.shown plus, w.2.shown plus))
        (otherwise.map (shown plus)) := by
  cases operand <;> cases otherwise <;> rw [shown, shownWhens_eq] <;> rfl

/-! ### Where nothing is shown as something else -/

mutual

theorem Reading.shown_false : (r : Reading) → r.shown false = r
  | .atom _ | .subquery _ | .exists _ => rfl
  | .not r => by rw [shown, r.shown_false]
  | .negate r => by rw [shown, r.shown_false]
  | .isNull r _ => by rw [shown, r.shown_false]
  | .binary l op r => by rw [shown, l.shown_false, op.shown_false, r.shown_false]
  | .cast r _ => by rw [shown, r.shown_false]
  | .call _ rs => by rw [shown, Reading.shownEach_false rs]
  | .inList r rs _ => by rw [shown, r.shown_false, Reading.shownEach_false rs]
  | .inSelect r _ _ => by rw [shown, r.shown_false]
  | .like r p _ => by rw [shown, r.shown_false, p.shown_false]
  | .case none ws none => by rw [shown, Reading.shownWhens_false ws]
  | .case none ws (some e) => by rw [shown, Reading.shownWhens_false ws, e.shown_false]
  | .case (some r) ws none => by rw [shown, r.shown_false, Reading.shownWhens_false ws]
  | .case (some r) ws (some e) => by
    rw [shown, r.shown_false, Reading.shownWhens_false ws, e.shown_false]

theorem Reading.shownEach_false : (rs : List Reading) → Reading.shownEach false rs = rs
  | [] => rfl
  | r :: rs => by rw [Reading.shownEach, r.shown_false, Reading.shownEach_false rs]

theorem Reading.shownWhens_false :
    (ws : List (Reading × Reading)) → Reading.shownWhens false ws = ws
  | [] => rfl
  | (c, r) :: ws => by
    rw [Reading.shownWhens, c.shown_false, r.shown_false, Reading.shownWhens_false ws]

end

end SelectCompiler
