import SelectCompiler.Proofs.Reader.TreeRuns
import SelectCompiler.Proofs.Arithmetic.Values

/-!
Runs of value operators: all those between the same parentheses with nothing but operands and signs
between them. Main statement: whatever has parentheses around it leaves the run outside as it is.
-/

namespace SelectCompiler

/-! ### Operators with agreed ranks -/

namespace BinaryOp

/-- The operators are the same, or both are arithmetic. -/
def Alike (a b : BinaryOp) : Prop := a = b ∨ a.isArithmetic = true ∧ b.isArithmetic = true

theorem Alike.trans {a b c : BinaryOp} (h : a.Alike b) (h' : b.Alike c) : a.Alike c := by
  rcases h with rfl | ⟨first, middle⟩
  · exact h'
  · rcases h' with rfl | ⟨-, last⟩
    · exact .inr ⟨first, middle⟩
    · exact .inr ⟨first, last⟩

theorem rank_of_value {op : BinaryOp} (h : op.isValueOperator = true) : 4 < op.rank :=
  of_decide_eq_true h

theorem rank_of_not_value {op : BinaryOp} (h : op.isValueOperator = false) : op.rank ≤ 4 :=
  Nat.le_of_not_lt (of_decide_eq_false h)

theorem isArithmetic_or_isStringOrBitwise {op : BinaryOp} (h : op.isValueOperator = true) :
    op.isArithmetic = true ∨ op.isStringOrBitwise = true := by
  cases op <;> first | exact .inl rfl | exact .inr rfl | cases h

theorem not_isArithmetic {op : BinaryOp} (h : op.isStringOrBitwise = true) :
    op.isArithmetic = false := by
  cases op <;> first | rfl | cases h

theorem alike_of_not_mixesWith {a b : BinaryOp} (ha : a.isValueOperator = true)
    (hb : b.isValueOperator = true) (h : a.mixesWith b = false) : a.Alike b := by
  simp only [mixesWith, ha, hb, Bool.and_true, Bool.and_eq_false_iff, bne_eq_false_iff_eq,
    Bool.or_eq_false_iff] at h
  rcases h with same | ⟨first, last⟩
  · exact .inl same.symm
  · have first := isArithmetic_or_isStringOrBitwise ha
    have last := isArithmetic_or_isStringOrBitwise hb
    simp_all [Alike]

end BinaryOp

/-- Only arithmetic, or one other operator alone. -/
def IsUniform (ops : List BinaryOp) : Prop :=
  (∀ op ∈ ops, op.isArithmetic = true) ∨
    ∃ single, single.isStringOrBitwise = true ∧ ∀ op ∈ ops, op = single

theorem isUniform_of_alike {a : BinaryOp} {ops : List BinaryOp} (value : a.isValueOperator = true)
    (h : ∀ op ∈ ops, a.Alike op) : IsUniform ops := by
  rcases BinaryOp.isArithmetic_or_isStringOrBitwise value with arithmetic | other
  · refine .inl fun op hop => ?_
    rcases h op hop with rfl | ⟨-, last⟩
    · exact arithmetic
    · exact last
  · refine .inr ⟨a, other, fun op hop => ?_⟩
    rcases h op hop with rfl | ⟨first, -⟩
    · rfl
    · simp [BinaryOp.not_isArithmetic other] at first

theorem IsUniform.alike {ops : List BinaryOp} (h : IsUniform ops) {a b : BinaryOp} (ha : a ∈ ops)
    (hb : b ∈ ops) : a.Alike b := by
  rcases h with arithmetic | ⟨single, -, same⟩
  · exact .inr ⟨arithmetic a ha, arithmetic b hb⟩
  · exact .inl ((same a ha).trans (same b hb).symm)

theorem isUniform_nil : IsUniform [] := .inl nofun

/-! ### Runs in lexemes -/

/-- The runs that are open between lexemes, the innermost first. -/
structure OpenRuns where
  /-- Whether an operand has just ended, so that `-` is an operator and no sign. -/
  ended : Bool
  run : List BinaryOp
  outer : List (List BinaryOp)

namespace OpenRuns

/-- The open runs behind a lexeme, and those that it ends. -/
def step : OpenRuns → Lexeme → OpenRuns × List (List BinaryOp)
  | ⟨_, run, outer⟩, .opening => (⟨false, [], run :: outer⟩, [])
  | ⟨_, run, outer⟩, .closing => (⟨true, outer.headD [], outer.tail⟩, [run])
  | ⟨ended, run, outer⟩, .operator op =>
    if op.isValueOperator then (⟨false, if ended then run ++ [op] else run, outer⟩, [])
    else (⟨false, [], outer⟩, [run])
  | ⟨_, run, outer⟩, .comma | ⟨_, run, outer⟩, .keyword _ => (⟨false, [], outer⟩, [run])
  | ⟨_, run, outer⟩, _ => (⟨true, run, outer⟩, [])

/-- The runs that end behind some point, at the latest with the text. -/
def ends : OpenRuns → List Lexeme → List (List BinaryOp)
  | state, [] => state.run :: state.outer
  | state, l :: ls => (state.step l).2 ++ ends (state.step l).1 ls

/-- What is open ends, with more operators or as it is. -/
theorem exists_ends (state : OpenRuns) (ls : List Lexeme) {run : List BinaryOp}
    (h : run ∈ state.run :: state.outer) : ∃ more, run ++ more ∈ state.ends ls := by
  induction ls generalizing state run with
  | nil => exact ⟨[], by simpa [ends] using h⟩
  | cons l ls ih =>
    have goesOn {run' : List BinaryOp} (more : List BinaryOp) (eq : run' = run ++ more)
        (h : run' ∈ (state.step l).1.run :: (state.step l).1.outer) :
        ∃ more, run ++ more ∈ state.ends (l :: ls) := by
      obtain ⟨more', mem⟩ := ih (state.step l).1 h
      refine ⟨more ++ more', List.mem_append_right _ ?_⟩
      rw [← List.append_assoc, ← eq]
      exact mem
    have stops (h : run ∈ (state.step l).2) : ∃ more, run ++ more ∈ state.ends (l :: ls) :=
      ⟨[], List.mem_append_left _ (by rwa [List.append_nil])⟩
    have stays (h : run ∈ (state.step l).1.run :: (state.step l).1.outer) :=
      goesOn [] (List.append_nil run).symm h
    obtain ⟨ended, current, outer⟩ := state
    -- What separates runs ends the current one and keeps those around it.
    have separates (next : (⟨ended, current, outer⟩ : OpenRuns).step l =
        (⟨false, [], outer⟩, [current])) :
        ∃ more, run ++ more ∈ ends ⟨ended, current, outer⟩ (l :: ls) := by
      rcases List.mem_cons.1 h with rfl | h
      · exact stops (by rw [next]; exact List.mem_cons_self)
      · exact stays (by rw [next]; exact List.mem_cons_of_mem _ h)
    cases l with
    | opening => exact stays (List.mem_cons_of_mem _ h)
    | closing =>
      rcases List.mem_cons.1 h with rfl | h
      · exact stops List.mem_cons_self
      · cases outer with
        | nil => cases h
        | cons run' outer => exact stays h
    | operator op =>
      cases value : op.isValueOperator with
      | false => exact separates (by simp [step, value])
      | true =>
        have next : (⟨ended, current, outer⟩ : OpenRuns).step (.operator op) =
            (⟨false, if ended then current ++ [op] else current, outer⟩, []) := by
          simp [step, value]
        rcases List.mem_cons.1 h with rfl | h
        · cases ended with
          | true => exact goesOn [op] rfl (by rw [next]; exact List.mem_cons_self)
          | false => exact stays (by rw [next]; exact List.mem_cons_self)
        · exact stays (by rw [next]; exact List.mem_cons_of_mem _ h)
    | comma => exact separates rfl
    | keyword k => exact separates rfl
    | _ => exact stays h

end OpenRuns

/-- All runs of a text; parentheses inside one have runs of their own. -/
def valueRuns (ls : List Lexeme) : List (List BinaryOp) := OpenRuns.ends ⟨false, [], []⟩ ls

/-! ### Runs that go on -/

/-- In place of an operand the lexemes make `run` into `run'`, and all runs that they end are
uniform. -/
def Carries (ls : List Lexeme) (run run' : List BinaryOp) : Prop :=
  ∀ outer rest, ∀ ended ∈ OpenRuns.ends ⟨false, run, outer⟩ (ls ++ rest),
    IsUniform ended ∨ ended ∈ OpenRuns.ends ⟨true, run', outer⟩ rest

namespace Carries

variable {ls rs : List Lexeme} {u v w : List BinaryOp}

theorem name (n : String) (u : List BinaryOp) : Carries [.name n] u u :=
  fun _ _ _ h => .inr h

theorem owned (owner n : String) (u : List BinaryOp) : Carries [.name owner, .dot, .name n] u u :=
  fun _ _ _ h => .inr h

/-- What has parentheses around it leaves the run outside as it is. -/
theorem enclosed (h : Carries ls [] v) (uniform : IsUniform v) (u : List BinaryOp) :
    Carries (.opening :: (ls ++ [Lexeme.closing])) u u := by
  intro outer rest ended mem
  rw [List.cons_append, List.append_assoc, List.singleton_append, OpenRuns.ends] at mem
  rcases h (u :: outer) (.closing :: rest) ended mem with uniform' | mem
  · exact .inl uniform'
  · rcases List.mem_cons.1 mem with rfl | mem
    · exact .inl uniform
    · exact .inr mem

theorem value {op : BinaryOp} (left : Carries ls u v) (value : op.isValueOperator = true)
    (right : Carries rs (v ++ [op]) w) : Carries (ls ++ Lexeme.operator op :: rs) u w := by
  intro outer rest ended mem
  rw [List.append_assoc, List.cons_append] at mem
  rcases left outer _ ended mem with uniform | mem
  · exact .inl uniform
  · rw [OpenRuns.ends] at mem
    simp only [OpenRuns.step, value, if_true, List.nil_append] at mem
    exact right outer rest ended mem

/-- An operator of another kind ends the run before it. -/
theorem other {op : BinaryOp} (left : Carries ls u v) (uniform : IsUniform v)
    (value : op.isValueOperator = false) (right : Carries rs [] w) :
    Carries (ls ++ Lexeme.operator op :: rs) u w := by
  intro outer rest ended mem
  rw [List.append_assoc, List.cons_append] at mem
  rcases left outer _ ended mem with uniform' | mem
  · exact .inl uniform'
  · rw [OpenRuns.ends] at mem
    simp only [OpenRuns.step, value] at mem
    rcases List.mem_cons.1 mem with rfl | mem
    · exact .inl uniform
    · exact right outer rest ended mem

theorem not (h : Carries ls [] v) : Carries (.keyword .not :: ls) [] v := by
  intro outer rest ended mem
  rcases List.mem_cons.1 mem with rfl | mem
  · exact .inl isUniform_nil
  · exact h outer rest ended mem

theorem negate (h : Carries ls u v) : Carries (.operator .subtract :: ls) u v :=
  fun outer rest ended mem => h outer rest ended mem

/-- The arguments of a call have runs of their own. -/
theorem call {v' : List BinaryOp} (head : String) (first : Carries ls [] v) (uniform : IsUniform v)
    (second : Carries rs [] v') (uniform' : IsUniform v') (u : List BinaryOp) :
    Carries (.word head :: .opening :: (ls ++ .comma :: rs ++ [Lexeme.closing])) u u := by
  have arguments : Carries (ls ++ .comma :: rs) [] v' := by
    intro outer rest ended mem
    rw [List.append_assoc, List.cons_append] at mem
    rcases first outer _ ended mem with uniform | mem
    · exact .inl uniform
    · rcases List.mem_cons.1 mem with rfl | mem
      · exact .inl uniform
      · exact second outer rest ended mem
  intro outer rest ended mem
  exact arguments.enclosed uniform' u outer rest ended mem

end Carries

end SelectCompiler
