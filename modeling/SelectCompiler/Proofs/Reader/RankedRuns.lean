import Mathlib.Data.List.Forall2
import SelectCompiler.Proofs.Reader.Rankings
import SelectCompiler.Proofs.Reader.Shown
import SelectCompiler.Proofs.Reader.ValueRuns

/-!
Readers with other ranks on texts whose runs are uniform. Main statement: they read what the reader
with the usual ranks reads, also where `||` is shown as a plus sign.
-/

namespace SelectCompiler

open ReadState (ofTurn)

/-! ### Pending operators as they are shown -/

def Pending.shown (plus : Bool) : Pending → Pending
  | .binary left op => .binary (left.shown plus) (op.shown plus)
  | .like item negated => .like (item.shown plus) negated
  | p => p

theorem Pending.build_shown (plus : Bool) (p : Pending) (r : Reading) :
    (p.shown plus).build (r.shown plus) = (p.build r).shown plus := by
  cases p <;> rfl

namespace BinaryOp

variable {plus : Bool} {op : BinaryOp}

theorem isValueOperator_shown (plus : Bool) (op : BinaryOp) :
    (op.shown plus).isValueOperator = op.isValueOperator := by
  cases op <;> cases plus <;> rfl

theorem shown_of_not_value (h : op.isValueOperator = false) : op.shown plus = op := by
  cases op <;> first | rfl | cases h

theorem shown_of_isArithmetic (h : op.isArithmetic = true) : op.shown plus = op := by
  cases op <;> first | rfl | cases h

end BinaryOp

/-! ### Pending operators -/

/-- The value operators among pending ones, down to the first operator of another kind. -/
def openValues : List Pending → List BinaryOp
  | .binary _ op :: ps => if op.isValueOperator then op :: openValues ps else []
  | .negate :: ps => openValues ps
  | _ => []

theorem openValues_eq_nil {ps : List Pending} (h : ∀ p ∈ ps.head?, p.rank ≤ 4) :
    openValues ps = [] := by
  cases ps with
  | nil => rfl
  | cons p ps =>
    have low := h p rfl
    cases p with
    | binary left op => simp [openValues, BinaryOp.isValueOperator, show ¬4 < op.rank from by
        simpa [Pending.rank] using low]
    | negate => simp [Pending.rank] at low
    | _ => rfl

theorem openValues_tail {p : Pending} {ps : List Pending} (h : 4 < p.rank) :
    openValues ps ⊆ openValues (p :: ps) := by
  cases p with
  | binary left op =>
    have value : op.isValueOperator = true := decide_eq_true h
    simp [openValues, value]
  | negate => exact List.Subset.refl _
  | not => simp [Pending.rank] at h
  | like item negated => simp [Pending.rank] at h

namespace Ranking

variable (R : Ranking) {plus : Bool}

theorem lt_sign : 4 < R.sign := by
  have := R.between .add rfl
  omega

theorem rank_of_isArithmetic {op : BinaryOp} (h : op.isArithmetic = true) :
    op.rank = 6 ∧ R.rank op = R.rank .add ∨ op.rank = 7 ∧ R.rank op = R.rank .multiply := by
  cases op with
  | add => exact .inl ⟨rfl, rfl⟩
  | subtract => exact .inl ⟨rfl, R.sums⟩
  | multiply => exact .inr ⟨rfl, rfl⟩
  | divide => exact .inr ⟨rfl, R.quotients⟩
  | modulo => exact .inr ⟨rfl, R.remainders⟩
  | _ => cases h

/-- Alike operators have the same order in all rankings. -/
theorem rank_le_iff {a b : BinaryOp} (h : a.Alike b) :
    b.rank ≤ a.rank ↔ R.rank (b.shown plus) ≤ R.rank (a.shown plus) := by
  rcases h with rfl | ⟨ha, hb⟩
  · simp
  · rw [BinaryOp.shown_of_isArithmetic ha, BinaryOp.shown_of_isArithmetic hb]
    have products := R.products
    have first := R.rank_of_isArithmetic ha
    have second := R.rank_of_isArithmetic hb
    omega

/-- Before something of these ranks the two readers give operands to the same pending operators. -/
def Agrees (plus : Bool) (q q' : Nat) : List Pending → Prop
  | [] => True
  | p :: ps => (q ≤ p.rank ↔ q' ≤ R.pendingRank (p.shown plus)) ∧ (q ≤ p.rank → Agrees plus q q' ps)

theorem rank_of_not_value {op : BinaryOp} (h : op.isValueOperator = false) :
    R.rank (op.shown plus) = op.rank := by
  rw [BinaryOp.shown_of_not_value h, R.agreed op h]

theorem between_shown (plus : Bool) {op : BinaryOp} (h : op.isValueOperator = true) :
    4 < R.rank (op.shown plus) ∧ R.rank (op.shown plus) < R.sign :=
  R.between _ ((BinaryOp.isValueOperator_shown plus op).trans h)

/-- All value operators and the sign are above the comparisons. -/
theorem le_pendingRank_iff {q : Nat} (h : q ≤ 5) (p : Pending) :
    q ≤ p.rank ↔ q ≤ R.pendingRank (p.shown plus) := by
  cases p with
  | binary left op =>
    simp only [Pending.shown, pendingRank, Pending.rank]
    cases value : op.isValueOperator with
    | true =>
      have own := BinaryOp.rank_of_value value
      have other := R.between_shown plus value
      omega
    | false => rw [R.rank_of_not_value value]
  | negate =>
    have := R.lt_sign
    simp only [Pending.shown, pendingRank, Pending.rank]
    omega
  | not => rfl
  | like item negated => rfl

theorem agrees_low {q : Nat} (h : q ≤ 5) (ps : List Pending) : R.Agrees plus q q ps := by
  induction ps with
  | nil => trivial
  | cons p ps ih => exact ⟨R.le_pendingRank_iff h p, fun _ => ih⟩

theorem agrees_value {op : BinaryOp} (value : op.isValueOperator = true) {ps : List Pending}
    (h : ∀ a ∈ openValues ps, a.Alike op) :
    R.Agrees plus op.rank (R.rank (op.shown plus)) ps := by
  have own := BinaryOp.rank_of_value value
  have top := op.rank_lt
  have other := R.between_shown plus value
  -- Below the first operator of another kind nothing gets an operand, so that alike value operators
  -- and signs are all that matters.
  induction ps with
  | nil => trivial
  | cons p ps ih =>
    cases p with
    | binary left a =>
      simp only [Agrees, Pending.shown, pendingRank, Pending.rank]
      cases value' : a.isValueOperator with
      | true =>
        simp only [openValues, value', if_true, List.forall_mem_cons] at h
        exact ⟨R.rank_le_iff h.1, fun _ => ih h.2⟩
      | false =>
        have low := BinaryOp.rank_of_not_value value'
        rw [R.rank_of_not_value value']
        exact ⟨by omega, fun le => absurd le (by omega)⟩
    | negate =>
      simp only [Agrees, Pending.shown, pendingRank, Pending.rank]
      exact ⟨by omega, fun _ => ih h⟩
    | not =>
      simp only [Agrees, Pending.shown, pendingRank, Pending.rank]
      exact ⟨by omega, fun le => absurd le (by omega)⟩
    | like item negated =>
      simp only [Agrees, Pending.shown, pendingRank, Pending.rank]
      exact ⟨by omega, fun le => absurd le (by omega)⟩

theorem agrees_operator {op : BinaryOp} {ps : List Pending}
    (h : op.isValueOperator = true → ∀ a ∈ openValues ps, a.Alike op) :
    R.Agrees plus op.rank (R.rank (op.shown plus)) ps := by
  cases value : op.isValueOperator with
  | true => exact R.agrees_value value (h value)
  | false =>
    have low := BinaryOp.rank_of_not_value value
    rw [R.rank_of_not_value value]
    exact R.agrees_low (by omega) ps

theorem leftDemand_shown {op : BinaryOp} {k K : Nat} (le : R.rank (op.shown plus) ≤ K)
    (high : 5 ≤ k ↔ 5 ≤ K) (h : op.leftDemand ≤ k) : R.leftDemand (op.shown plus) ≤ K := by
  unfold leftDemand
  split
  · rename_i compares
    rw [BinaryOp.leftDemand, ← BinaryOp.isComparison_shown plus, if_pos compares] at h
    exact high.1 h
  · exact le

/-- What is left for two readers after they gave operands to pending operators. -/
structure Settled (plus : Bool) (q q' : Nat) (ps : List Pending)
    (usual ranked : Reading × Nat × List Pending) : Prop where
  reading : ranked.1 = usual.1.shown plus
  pending : ranked.2.2 = usual.2.2.map (Pending.shown plus)
  le : q ≤ usual.2.1
  le' : q' ≤ ranked.2.1
  high : 5 ≤ usual.2.1 ↔ 5 ≤ ranked.2.1
  head : ∀ p ∈ usual.2.2.head?, p.rank < q
  values : 4 < q → openValues usual.2.2 ⊆ openValues ps

theorem settle_shown {q q' : Nat} {ps : List Pending} (agrees : R.Agrees plus q q' ps)
    (r : Reading) {k K : Nat} (le : q ≤ k) (le' : q' ≤ K) (high : 5 ≤ k ↔ 5 ≤ K) :
    Settled plus q q' ps (ReadState.settle q r k ps)
      (R.settle q' (r.shown plus) K (ps.map (Pending.shown plus))) := by
  induction ps generalizing r k K with
  | nil => exact ⟨rfl, rfl, le, le', high, nofun, fun _ => List.Subset.refl _⟩
  | cons p ps ih =>
    obtain ⟨same, rest⟩ := agrees
    rw [List.map_cons, ReadState.settle, settle]
    by_cases given : q ≤ p.rank
    · rw [if_pos given, if_pos (same.1 given), Pending.build_shown]
      have settled := ih (rest given) (p.build r) given (same.1 given)
        (R.le_pendingRank_iff (Nat.le_refl 5) p)
      exact { settled with
        values := fun four =>
          List.Subset.trans (settled.values four) (openValues_tail (by omega)) }
    · rw [if_neg given, if_neg fun h => given (same.2 h)]
      refine ⟨rfl, rfl, le, le', high, ?_, fun _ => List.Subset.refl _⟩
      rintro p ⟨⟩
      exact Nat.lt_of_not_le given

end Ranking

/-! ### States -/

def Bracket.shown (plus : Bool) : Bracket → Bracket
  | .call head rs => .call head (rs.map (Reading.shown plus))
  | b => b

def Phase.shown (plus : Bool) : Phase → Phase
  | .ended r k => .ended (r.shown plus) k
  | .negated r => .negated (r.shown plus)
  | phase => phase

def ReadState.shown (plus : Bool) : ReadState → ReadState
  | ⟨phase, ps, outer⟩ =>
    ⟨phase.shown plus, ps.map (Pending.shown plus),
      outer.map fun b => (b.1.shown plus, b.2.map (Pending.shown plus))⟩

/-- The lexemes of columns, calls and operators. -/
def Lexeme.IsPlain : Lexeme → Prop
  | .name _ | .word _ | .dot | .operator _ | .opening | .closing | .comma | .keyword .not => True
  | _ => False

theorem Lexeme.IsPlain.shown {l : Lexeme} (h : l.IsPlain) (plus : Bool) :
    (l.shown plus).IsPlain := by
  cases l <;> exact h

def Bracket.IsPlain : Bracket → Prop
  | .group | .call _ _ => True
  | _ => False

/-- The phases between plain lexemes, before an operand or behind it. Nothing plain follows the last
one. -/
def Phase.Suits : Phase → (behind : Bool) → Prop
  | .operand, behind | .opened, behind => behind = false
  | .atom _, behind => behind = true
  | .ended _ k, behind => behind = true ∧ k = 9
  | .negated _, _ => True
  | _, _ => False

/-- The brackets stand around the runs, and what is pending in front of them belongs to these. -/
def Surrounds (outer : List (Bracket × List Pending)) (runs : List (List BinaryOp)) : Prop :=
  List.Forall₂ (fun b run => b.1.IsPlain ∧ openValues b.2 ⊆ run) outer runs

/-- The value operators that a reader keeps belong to the open runs. -/
structure Tracks (runs : OpenRuns) (state : ReadState) : Prop where
  phase : state.phase.Suits runs.ended
  pending : openValues state.pending ⊆ runs.run
  outer : Surrounds state.outer runs.outer

/-- The other reader comes to the same state behind a lexeme, and the state tracks the runs. -/
structure StepsAlike (plus : Bool) (runs : OpenRuns) (l : Lexeme) (ranked : Option ReadState)
    (next : ReadState) : Prop where
  same : ranked = some (next.shown plus)
  tracks : Tracks (runs.step l).1 next

namespace Ranking

variable (R : Ranking) {plus : Bool} {runs : OpenRuns} {ps : List Pending}
  {outer : List (Bracket × List Pending)} {l : Lexeme} {state : ReadState}

theorem demand_shown (ps : List Pending) :
    ReadState.demand (ps.map (Pending.shown plus)) ≤ 3 ↔ ReadState.demand ps ≤ 3 := by
  cases ps with
  | nil => rfl
  | cons p ps =>
    cases p with
    | binary left op =>
      simp only [List.map_cons, ReadState.demand, Pending.shown, Pending.demand]
      cases op <;> cases plus <;> decide
    | _ => rfl

/-- Brackets as they are shown. -/
abbrev shownOuter (plus : Bool) (outer : List (Bracket × List Pending)) :
    List (Bracket × List Pending) :=
  outer.map fun b => (b.1.shown plus, b.2.map (Pending.shown plus))

/-- An operand begins alike for both readers. -/
theorem begin_shown (plain : l.IsPlain) (pending : openValues ps ⊆ runs.run)
    (around : Surrounds outer runs.outer) (before : runs.ended = false)
    (h : ReadState.begin ps outer l = some state) :
    StepsAlike plus runs l
      (ReadState.begin (ps.map (Pending.shown plus)) (shownOuter plus outer) (l.shown plus))
      state := by
  obtain ⟨ended, run, open'⟩ := runs
  subst before
  cases l with
  | name n =>
    cases h
    exact ⟨rfl, ⟨rfl, pending, around⟩⟩
  | word w =>
    cases h
    exact ⟨rfl, ⟨rfl, pending, around⟩⟩
  | dot =>
    cases h
    exact ⟨rfl, ⟨rfl, pending, around⟩⟩
  | opening =>
    cases h
    exact ⟨rfl, ⟨rfl, List.nil_subset _, .cons ⟨trivial, pending⟩ around⟩⟩
  | keyword k =>
    cases k with
    | not =>
      rw [ReadState.begin] at h
      split at h
      · cases h
        rename_i low
        refine ⟨?_, ⟨rfl, List.nil_subset _, around⟩⟩
        simp [Lexeme.shown, ReadState.begin, demand_shown, low, ReadState.shown, Phase.shown,
          Pending.shown]
      · cases h
    | _ => cases plain
  | operator op =>
    cases op with
    | subtract =>
      cases h
      exact ⟨rfl, ⟨rfl, pending, around⟩⟩
    | _ => cases h
  | closing => cases h
  | comma => cases h
  | _ => cases plain

/-- Behind an operand both readers give operands away, and go on with what is left. -/
theorem exists_settled {q q' : Nat} {r : Reading} (reach : l.reach = some q)
    (reach' : R.reach (l.shown plus) = some q') (agrees : R.Agrees plus q q' ps) (le : q ≤ 9)
    (le' : q' ≤ R.sign + 1) (h : ReadState.afterOperand r 9 ps outer l = some state) :
    ∃ r' k' K' ps', Settled plus q q' ps (r', k', ps')
        (r'.shown plus, K', ps'.map (Pending.shown plus)) ∧
      ReadState.goOn r' k' ps' outer l = some state ∧
      R.afterOperand (r.shown plus) 9 (ps.map (Pending.shown plus)) (shownOuter plus outer)
          (l.shown plus) =
        R.goOn (r'.shown plus) K' (ps'.map (Pending.shown plus)) (shownOuter plus outer)
          (l.shown plus) := by
  have sign := R.lt_sign
  have settled := R.settle_shown agrees r le le' (by omega)
  simp only [ReadState.afterOperand, reach] at h
  simp only [afterOperand, reach', operandRank, if_true]
  generalize ReadState.settle q r 9 ps = usual at h settled
  generalize R.settle _ _ _ _ = ranked at settled
  obtain ⟨r', k', ps'⟩ := usual
  obtain ⟨_, K', _⟩ := ranked
  obtain rfl := settled.reading
  obtain rfl := settled.pending
  exact ⟨r', k', K', ps', settled, h, rfl⟩

/-- Behind an operand both readers go on with an operator alike. -/
theorem operator_shown {op : BinaryOp} {r : Reading} (pending : openValues ps ⊆ runs.run)
    (around : Surrounds outer runs.outer) (behind : runs.ended = true)
    (alike : op.isValueOperator = true → ∀ a ∈ runs.run, a.Alike op)
    (h : ReadState.afterOperand r 9 ps outer (.operator op) = some state) :
    StepsAlike plus runs (.operator op)
      (R.afterOperand (r.shown plus) 9 (ps.map (Pending.shown plus)) (shownOuter plus outer)
        (.operator (op.shown plus))) state := by
  obtain ⟨ended, run, open'⟩ := runs
  subst behind
  have top := op.rank_lt
  have sign := R.lt_sign
  have below : R.rank (op.shown plus) ≤ R.sign + 1 := by
    cases value : op.isValueOperator with
    | true =>
      have := R.between_shown plus value
      omega
    | false =>
      have := BinaryOp.rank_of_not_value value
      rw [R.rank_of_not_value value]
      omega
  have agrees : R.Agrees plus op.rank (R.rank (op.shown plus)) ps :=
    R.agrees_operator fun value a ha => alike value a (pending ha)
  obtain ⟨r', k', K', ps', settled, h, ranked⟩ :=
    R.exists_settled (l := .operator op) rfl rfl agrees (by omega) below h
  rw [Lexeme.shown] at ranked
  rw [ranked]
  rw [ReadState.goOn] at h
  split at h
  · rename_i fits
    cases h
    have fits' := R.leftDemand_shown settled.le' settled.high fits
    constructor
    · simp [goOn, fits', ReadState.shown, Phase.shown, Pending.shown]
    · cases value : op.isValueOperator with
      | true =>
        simp only [OpenRuns.step, value, if_true]
        refine ⟨rfl, ?_, around⟩
        simp only [openValues, value, if_true]
        refine List.cons_subset.2 ⟨by simp, fun a ha => ?_⟩
        exact List.mem_append_left _ (pending (settled.values (BinaryOp.rank_of_value value) ha))
      | false =>
        simp only [OpenRuns.step, value]
        exact ⟨rfl, by simp [openValues, value], around⟩
  · cases h

/-- A bracket of a call or a group goes on alike, whatever ranks the operand has. -/
theorem bracket_shown {r : Reading} {b : Bracket} {k K : Nat} {run : List BinaryOp}
    {open' : List (List BinaryOp)} {ps' : List Pending} (mark : l = .closing ∨ l = .comma)
    (around : Surrounds ((b, ps) :: outer) (run :: open'))
    (h : ReadState.goOn r k ps' ((b, ps) :: outer) l = some state) (current : List BinaryOp) :
    StepsAlike plus ⟨true, current, run :: open'⟩ l
      (ReadState.goOn (r.shown plus) K (ps'.map (Pending.shown plus))
        (shownOuter plus ((b, ps) :: outer)) l) state := by
  obtain _ | ⟨⟨plain, within⟩, around⟩ := around
  rcases mark with rfl | rfl
  · cases b with
    | group =>
      cases h
      exact ⟨rfl, ⟨rfl, rfl⟩, within, around⟩
    | call head rs =>
      cases h
      refine ⟨?_, ⟨rfl, rfl⟩, within, around⟩
      simp [ReadState.goOn, Bracket.shown, Bracket.turn, ofTurn, ReadState.shown, Phase.shown,
        Reading.shown, Reading.shownEach_eq]
    | _ => cases plain
  · cases b with
    | group => cases h
    | call head rs =>
      cases h
      refine ⟨?_, rfl, List.nil_subset _, .cons ⟨trivial, within⟩ around⟩
      simp [ReadState.goOn, Bracket.shown, Bracket.turn, ofTurn, ReadState.shown, Phase.shown]
    | _ => cases plain

/-- Behind an operand both readers go on with a mark or a word alike. -/
theorem mark_shown {r : Reading} (plain : l.IsPlain) (mark : ∀ op, l ≠ .operator op)
    (around : Surrounds outer runs.outer) (behind : runs.ended = true)
    (h : ReadState.afterOperand r 9 ps outer l = some state) :
    StepsAlike plus runs l
      (R.afterOperand (r.shown plus) 9 (ps.map (Pending.shown plus)) (shownOuter plus outer)
        (l.shown plus)) state := by
  obtain ⟨ended, run, open'⟩ := runs
  subst behind
  have goesOn {q : Nat} (low : q ≤ 4) (reach : l.reach = some q)
      (reach' : R.reach (l.shown plus) = some q) :=
    R.exists_settled reach reach' (R.agrees_low (by omega) ps) (by omega)
      (by have := R.lt_sign; omega) h
  cases l with
  | operator op => exact absurd rfl (mark op)
  | keyword k =>
    cases k with
    | not =>
      obtain ⟨r', k', K', ps', settled, h, ranked⟩ := goesOn (Nat.le_refl 4) rfl rfl
      rw [ranked]
      rw [ReadState.goOn] at h
      split at h
      · rename_i fits
        cases h
        constructor
        · simp only [Lexeme.shown, goOn, ReadState.goOn, settled.high.1 fits, if_true,
            ReadState.shown, Phase.shown]
        · refine ⟨trivial, ?_, around⟩
          rw [openValues_eq_nil fun p hp => Nat.le_of_lt (settled.head p hp)]
          exact List.nil_subset _
      · cases h
    | _ => cases plain
  | closing =>
    obtain ⟨r', k', K', ps', -, h, ranked⟩ := goesOn (Nat.zero_le 4) rfl rfl
    cases around with
    | nil => cases h
    | cons inside around =>
      rw [ranked]
      exact bracket_shown (K := K') (.inl rfl) (.cons inside around) h run
  | comma =>
    obtain ⟨r', k', K', ps', -, h, ranked⟩ := goesOn (Nat.zero_le 4) rfl rfl
    cases around with
    | nil => cases h
    | cons inside around =>
      rw [ranked]
      exact bracket_shown (K := K') (.inr rfl) (.cons inside around) h run
  | _ => cases h

theorem behind_shown {r : Reading} (plain : l.IsPlain)
    (alike : ∀ op, l = .operator op → op.isValueOperator = true → runs.ended = true →
      ∀ a ∈ runs.run, a.Alike op)
    (pending : openValues ps ⊆ runs.run) (around : Surrounds outer runs.outer)
    (behind : runs.ended = true) (h : ReadState.afterOperand r 9 ps outer l = some state) :
    StepsAlike plus runs l
      (R.afterOperand (r.shown plus) 9 (ps.map (Pending.shown plus)) (shownOuter plus outer)
        (l.shown plus)) state := by
  by_cases operator : ∃ op, l = .operator op
  · obtain ⟨op, rfl⟩ := operator
    exact R.operator_shown pending around behind (fun value => alike op rfl value behind) h
  · exact R.mark_shown plain (fun op eq => operator ⟨op, eq⟩) around behind h

theorem step_opened (plain : l.IsPlain) (closing : l ≠ .closing) :
    ReadState.step ⟨.opened, ps, outer⟩ l = ReadState.begin ps outer l := by
  have select : l ≠ .keyword .select := by
    rintro rfl
    exact plain
  simp [ReadState.step, closing, select]

/-- Behind an opening parenthesis a call without arguments ends, or an operand begins. -/
theorem opened_shown (plain : l.IsPlain) (pending : openValues ps ⊆ runs.run)
    (around : Surrounds outer runs.outer) (before : runs.ended = false)
    (h : ReadState.step ⟨.opened, ps, outer⟩ l = some state) :
    StepsAlike plus runs l (R.step (ReadState.shown plus ⟨.opened, ps, outer⟩) (l.shown plus))
      state := by
  by_cases closing : l = .closing
  · subst closing
    obtain ⟨ended, run, open'⟩ := runs
    cases around with
    | nil => cases h
    | @cons b _ _ _ inside around =>
      obtain ⟨bracket, ps'⟩ := b
      cases bracket with
      | call head rs =>
        cases rs with
        | nil =>
          cases h
          exact ⟨rfl, ⟨⟨rfl, rfl⟩, inside.2, around⟩⟩
        | cons r rs => cases h
      | _ => cases h
  · have shown : l.shown plus ≠ .closing := by
      cases l with
      | closing => exact absurd rfl closing
      | _ => exact nofun
    have same : R.step (ReadState.shown plus ⟨.opened, ps, outer⟩) (l.shown plus) =
        ReadState.begin (ps.map (Pending.shown plus)) (shownOuter plus outer) (l.shown plus) :=
      step_opened (plain.shown plus) shown
    rw [step_opened plain closing] at h
    rw [same]
    exact begin_shown plain pending around before h

/-- A step of the usual reader is a step of any reader, if what it has read of a run is like the
operator that it comes to. -/
theorem step_shown (plain : l.IsPlain) (tracks : Tracks runs state)
    (alike : ∀ op, l = .operator op → op.isValueOperator = true → runs.ended = true →
      ∀ a ∈ runs.run, a.Alike op) {next : ReadState} (h : state.step l = some next) :
    StepsAlike plus runs l (R.step (state.shown plus) (l.shown plus)) next := by
  obtain ⟨phase, ps, outer⟩ := state
  obtain ⟨suits, pending, around⟩ := tracks
  cases phase with
  | operand => exact begin_shown plain pending around suits h
  | opened => exact R.opened_shown plain pending around suits h
  | atom ls =>
    cases l with
    | opening =>
      cases h
      exact ⟨rfl, ⟨rfl, List.nil_subset _, .cons ⟨trivial, pending⟩ around⟩⟩
    | name n =>
      cases h
      exact ⟨rfl, ⟨rfl, pending, around⟩⟩
    | word w =>
      cases h
      exact ⟨rfl, ⟨rfl, pending, around⟩⟩
    | dot =>
      cases h
      exact ⟨rfl, ⟨rfl, pending, around⟩⟩
    | operator op => exact R.behind_shown (r := .atom ls) plain alike pending around suits h
    | closing => exact R.behind_shown (r := .atom ls) plain alike pending around suits h
    | comma => exact R.behind_shown (r := .atom ls) plain alike pending around suits h
    | keyword k =>
      cases k with
      | not => exact R.behind_shown (r := .atom ls) plain alike pending around suits h
      | _ => cases plain
    | _ => cases plain
  | ended r k =>
    obtain ⟨behind, rfl⟩ := suits
    exact R.behind_shown plain alike pending around behind h
  | negated r =>
    cases l with
    | keyword k =>
      cases k with
      | not => cases h
      | _ => cases plain
    | _ => cases h
  | _ => exact suits.elim

/-- At the end of a text all pending operators get their operands. -/
theorem finish_shown {r : Reading} (h : state.finish = some r) :
    (state.shown plus).finish = some (r.shown plus) := by
  have settled (r : Reading) (k k' : Nat) (ps : List Pending) :
      (ReadState.settle 0 (r.shown plus) k (ps.map (Pending.shown plus))).1 =
        (ReadState.settle 0 r k' ps).1.shown plus := by
    induction ps generalizing r k k' with
    | nil => rfl
    | cons p ps ih =>
      rw [List.map_cons, ReadState.settle, ReadState.settle, if_pos (Nat.zero_le _),
        if_pos (Nat.zero_le _), Pending.build_shown, ih]
  obtain ⟨phase, ps, outer⟩ := state
  cases outer with
  | cons b outer => cases phase <;> cases h
  | nil =>
    cases phase with
    | atom ls =>
      cases h
      exact congrArg some (settled (.atom ls) 9 9 ps)
    | ended r k =>
      cases h
      exact congrArg some (settled r k k ps)
    | _ => cases h

/-- Where every run is uniform, a reader with other ranks reads what the reader with the usual ranks
reads. -/
theorem run_shown {ls : List Lexeme} (plain : ∀ l ∈ ls, l.IsPlain) (tracks : Tracks runs state)
    (uniform : ∀ run ∈ runs.ends ls, IsUniform run) {r : Reading} (h : state.run ls = some r) :
    R.run (state.shown plus) (ls.map (Lexeme.shown plus)) = some (r.shown plus) := by
  induction ls generalizing runs state with
  | nil => exact finish_shown h
  | cons l ls ih =>
    rw [List.forall_mem_cons] at plain
    obtain ⟨next, stepped, h⟩ := Option.bind_eq_some_iff.1 h
    have later : ∀ run ∈ (runs.step l).1.ends ls, IsUniform run := fun run hrun =>
      uniform run (List.mem_append_right _ hrun)
    -- What has been read of a run is part of a run that ends later on, and that one is uniform.
    have alike (op : BinaryOp) (eq : l = .operator op) (value : op.isValueOperator = true)
        (ended : runs.ended = true) (a : BinaryOp) (ha : a ∈ runs.run) : a.Alike op := by
      have run : (runs.step l).1.run = runs.run ++ [op] := by
        obtain ⟨ended, run, open'⟩ := runs
        subst eq ended
        simp [OpenRuns.step, value]
      obtain ⟨more, mem⟩ := (runs.step l).1.exists_ends ls List.mem_cons_self
      rw [run] at mem
      exact (later _ mem).alike (by simp [ha]) (by simp)
    obtain ⟨same, tracks⟩ : StepsAlike plus runs l (R.step (state.shown plus) (l.shown plus)) next :=
      R.step_shown plain.1 tracks alike stepped
    rw [List.map_cons, run, same, Option.bind_some]
    exact ih plain.2 tracks later h

end Ranking

end SelectCompiler
