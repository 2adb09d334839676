import SelectCompiler.Proofs.Reader.Escapes
import SelectCompiler.Proofs.Reader.Shown
import SelectCompiler.Proofs.Tokens.TreePhrase

/-!
Runs of the reader. Main statements: for every form of expression, the reader gets over its lexemes
to what they say, if it gets over the lexemes of the operands and the operands bind tightly enough.
-/

namespace SelectCompiler

open ReadState (ofTurn demand settle begin goOn afterOperand step stepWith_of_ne stepWith_operand
  stepWith_opened stepWith_cased stepWith_expecting stepWith_skipping runWith)

/-- The rank with which a lexeme goes on after an operand; `ESCAPE` is above all tests. -/
def Lexeme.bound : Lexeme → Option Nat
  | keyword .escape => some 5
  | l => l.reach

/-- What stands in front of the word of a negated test. -/
def Lexeme.notIf (negated : Bool) : List Lexeme := if negated then [keyword .not] else []

@[simp] theorem Lexeme.notIf_false : notIf false = [] := rfl

@[simp] theorem Lexeme.notIf_true : notIf true = [keyword .not] := rfl

open Lexeme (closing keyword notIf notIf_false notIf_true opening)

/-- What may follow an expression of a rank: the end, or a lexeme that does not bind tighter. -/
def Follows (k : Nat) (ls : List Lexeme) : Prop := ∀ l ∈ ls.head?, ∃ q, l.bound = some q ∧ q ≤ k

/-- In place of an operand of at least the demanded rank, the lexemes say `r`. -/
def Reads (escapes : Bool) (ls : List Lexeme) (r : Reading) (k : Nat) : Prop :=
  ∀ ps outer rest, demand ps ≤ k → Follows k rest →
    runWith escapes ⟨.operand, ps, outer⟩ (ls ++ rest) =
      runWith escapes ⟨.ended r k, ps, outer⟩ rest

/-- Behind `x op` the lexemes say `g x`, together with what stands there already. Operators are as
they are shown. -/
def Attaches (escapes plus : Bool) (ls : List Lexeme) (op : BinaryOp) (g : Reading → Reading) :
    Prop :=
  ∀ x ps outer rest, demand ps ≤ (op.shown plus).rank → Follows (op.shown plus).rank rest →
    runWith escapes ⟨.operand, .binary (x.shown plus) (op.shown plus) :: ps, outer⟩ (ls ++ rest) =
      runWith escapes ⟨.ended ((g x).shown plus) (op.shown plus).rank, ps, outer⟩ rest

theorem Lexeme.bound_of_reach {l : Lexeme} {q : Nat} (h : l.reach = some q) : l.bound = some q := by
  unfold bound
  split
  · cases h
  · exact h

theorem Lexeme.ne_escape {l : Lexeme} {q : Nat} (h : l.reach = some q) : l ≠ .keyword .escape := by
  rintro rfl
  cases h

theorem Follows.mono {j k : Nat} {ls : List Lexeme} (h : Follows j ls) (le : j ≤ k) :
    Follows k ls := by
  intro l hl
  obtain ⟨q, reach, bound⟩ := h l hl
  exact ⟨q, reach, by omega⟩

theorem follows_cons {k q : Nat} {l : Lexeme} (reach : l.reach = some q) (le : q ≤ k)
    (ls : List Lexeme) : Follows k (l :: ls) := by
  rintro _ ⟨⟩
  exact ⟨q, Lexeme.bound_of_reach reach, le⟩

variable {escapes plus : Bool} {ps : List Pending} {outer : List (Bracket × List Pending)}
  {rest : List Lexeme}

/-! ### Single steps -/

theorem step_atom {l : Lexeme} {q : Nat} (reach : l.reach = some q) (as : List Lexeme) :
    step ⟨.atom as, ps, outer⟩ l = step ⟨.ended (.atom as) 9, ps, outer⟩ l := by
  cases l with
  | keyword k => cases k <;> first | rfl | cases reach
  | operator op => rfl
  | closing => rfl
  | comma => rfl
  | name n => cases reach
  | text s => cases reach
  | word w => cases reach
  | dot => cases reach
  | opening => cases reach
  | stray s => cases reach

theorem run_atom {k : Nat} (follows : Follows k rest) (as : List Lexeme) :
    runWith escapes ⟨.atom as, ps, outer⟩ rest =
      runWith escapes ⟨.ended (.atom as) 9, ps, outer⟩ rest := by
  cases rest with
  | nil => cases outer <;> rfl
  | cons l ls =>
    obtain ⟨q, bound, -⟩ := follows l rfl
    by_cases word : l = .keyword .escape
    · subst word
      rfl
    · have reach : l.reach = some q := by simpa [Lexeme.bound, word] using bound
      rw [runWith, runWith, stepWith_of_ne word, stepWith_of_ne word, step_atom reach]

theorem run_build {p : Pending} (follows : Follows p.rank rest) (r : Reading) (k : Nat) :
    runWith escapes ⟨.ended r k, p :: ps, outer⟩ rest =
      runWith escapes ⟨.ended (p.build r) p.rank, ps, outer⟩ rest := by
  cases rest with
  | nil => cases outer <;> simp [runWith, ReadState.finish, settle]
  | cons l ls =>
    obtain ⟨q, bound, le⟩ := follows l rfl
    have settled : settle q r k (p :: ps) = settle q (p.build r) p.rank ps := by
      rw [settle, if_pos le]
    by_cases word : l = .keyword .escape
    · subst word
      obtain rfl : 5 = q := Option.some.inj bound
      have same : ReadState.escape r k (p :: ps) outer =
          ReadState.escape (p.build r) p.rank ps outer := by
        rw [ReadState.escape, ReadState.escape, settled]
      rw [runWith, runWith, ReadState.stepWith, ReadState.stepWith, same]
    · have reach : l.reach = some q := by simpa [Lexeme.bound, word] using bound
      have same : afterOperand r k (p :: ps) outer l =
          afterOperand (p.build r) p.rank ps outer l := by
        simp only [afterOperand, reach, settled]
      rw [runWith, runWith, stepWith_of_ne word, stepWith_of_ne word, step, step, same]

theorem settle_self {q : Nat} (q3 : q ≠ 3) (q8 : q < 8) (le : demand ps ≤ q) (r : Reading)
    (k : Nat) : settle q r k ps = (r, k, ps) := by
  cases ps with
  | nil => rfl
  | cons p ps =>
    have stays : ¬q ≤ p.rank := by
      cases p <;> simp only [demand, Pending.demand, Pending.rank] at le ⊢ <;> omega
    rw [settle, if_neg stays]

theorem step_ended {l : Lexeme} {q : Nat} (reach : l.reach = some q) (q3 : q ≠ 3) (q8 : q < 8)
    (le : demand ps ≤ q) (r : Reading) (k : Nat) :
    step ⟨.ended r k, ps, outer⟩ l = goOn r k ps outer l := by
  rw [step, afterOperand, reach]
  dsimp only
  rw [settle_self q3 q8 le]

theorem run_ended {l : Lexeme} {q : Nat} (reach : l.reach = some q) (q3 : q ≠ 3) (q8 : q < 8)
    (le : demand ps ≤ q) (r : Reading) (k : Nat) :
    runWith escapes ⟨.ended r k, ps, outer⟩ (l :: rest) =
      (goOn r k ps outer l).bind (runWith escapes · rest) := by
  rw [runWith, stepWith_of_ne (Lexeme.ne_escape reach), step_ended reach q3 q8 le]

theorem BinaryOp.rank_ne (op : BinaryOp) : op.rank ≠ 3 := by cases op <;> decide

theorem BinaryOp.rank_le_leftDemand (op : BinaryOp) : op.rank ≤ op.leftDemand := by
  cases op <;> decide

/-! ### Binary operators -/

theorem run_operator {op : BinaryOp} {k : Nat} (fits : op.leftDemand ≤ k)
    (le : demand ps ≤ op.rank) (r : Reading) :
    runWith escapes ⟨.ended r k, ps, outer⟩ (.operator op :: rest) =
      runWith escapes ⟨.operand, .binary r op :: ps, outer⟩ rest := by
  have rank := op.rank_lt
  rw [run_ended (q := op.rank) rfl op.rank_ne rank le, goOn, if_pos fits]
  rfl

theorem Attaches.ofReads {ls : List Lexeme} {r : Reading} {k : Nat} {op : BinaryOp}
    (h : Reads escapes ls (r.shown plus) k) (tighter : (op.shown plus).rank < k) :
    Attaches escapes plus ls op fun x => .binary x op r := by
  intro x ps outer rest le follows
  have operand := h (.binary (x.shown plus) (op.shown plus) :: ps) outer rest tighter
    (follows.mono (by omega))
  rw [operand]
  exact run_build (p := .binary (x.shown plus) (op.shown plus)) follows (r.shown plus) k

theorem Reads.binary {ls rs : List Lexeme} {x : Reading} {k : Nat} {op : BinaryOp}
    {g : Reading → Reading} (left : Reads escapes ls (x.shown plus) k)
    (fits : (op.shown plus).leftDemand ≤ k) (right : Attaches escapes plus rs op g) :
    Reads escapes (ls ++ Lexeme.operator (op.shown plus) :: rs) ((g x).shown plus)
      (op.shown plus).rank := by
  intro ps outer rest le follows
  have rank := (op.shown plus).rank_le_leftDemand
  have next : Follows k (.operator (op.shown plus) :: (rs ++ rest)) :=
    follows_cons rfl (by omega) _
  rw [List.append_assoc, List.cons_append, left ps outer _ (by omega) next, run_operator fits le]
  exact right x ps outer rest le follows

/-- A left operand of the same rank takes what stands before it into itself. -/
theorem Attaches.binary {ls rs : List Lexeme} {op inner : BinaryOp} {f g : Reading → Reading}
    (left : Attaches escapes plus ls op f) (same : (op.shown plus).rank = (inner.shown plus).rank)
    (chains : (inner.shown plus).leftDemand = (inner.shown plus).rank)
    (right : Attaches escapes plus rs inner g) :
    Attaches escapes plus (ls ++ Lexeme.operator (inner.shown plus) :: rs) op fun x => g (f x) := by
  intro x ps outer rest le follows
  have next : Follows (op.shown plus).rank (.operator (inner.shown plus) :: (rs ++ rest)) :=
    follows_cons rfl (by omega) _
  rw [List.append_assoc, List.cons_append, left x ps outer _ le next,
    run_operator (by omega) (by omega), right (f x) ps outer rest (by omega) (same ▸ follows), same]

/-! ### Other operators -/

theorem Reads.not {ls : List Lexeme} {r : Reading} {k : Nat} (h : Reads escapes ls r k)
    (fits : 3 ≤ k) : Reads escapes (.keyword .not :: ls) (.not r) 3 := by
  intro ps outer rest le follows
  have operand := h (.not :: ps) outer rest fits (follows.mono fits)
  rw [List.cons_append, runWith, stepWith_operand, begin, if_pos le, Option.bind_some, operand]
  exact run_build (p := .not) follows r k

theorem Reads.negate {ls : List Lexeme} {r : Reading} {k : Nat} (h : Reads escapes ls r k)
    (fits : 8 ≤ k) : Reads escapes (.operator .subtract :: ls) (.negate r) 8 := by
  intro ps outer rest le follows
  have operand := h (.negate :: ps) outer rest fits (follows.mono fits)
  rw [List.cons_append, runWith, stepWith_operand, begin, Option.bind_some, operand]
  exact run_build (p := .negate) follows r k

theorem Reads.run_test {ls : List Lexeme} {r : Reading} {k : Nat} (h : Reads escapes ls r k)
    (fits : 5 ≤ k) {l : Lexeme} (reach : l.reach = some 4) (le : demand ps ≤ 4) :
    runWith escapes ⟨.operand, ps, outer⟩ (ls ++ l :: rest) =
      (goOn r k ps outer l).bind (runWith escapes · rest) := by
  have next : Follows k (l :: rest) := follows_cons reach (by omega) rest
  rw [h ps outer _ (by omega) next, run_ended reach (by omega) (by omega) le]

theorem Reads.isNull {ls : List Lexeme} {r : Reading} {k : Nat} (h : Reads escapes ls r k)
    (fits : 5 ≤ k) (negated : Bool) :
    Reads escapes (ls ++ keyword .is :: (notIf negated ++ [keyword .null]))
      (.isNull r negated) 4 := by
  intro ps outer rest le follows
  rw [List.append_assoc, List.cons_append, h.run_test fits rfl le, goOn, if_pos fits]
  cases negated <;> rfl

theorem follows_like {k : Nat} (fits : 4 ≤ k) (negated : Bool) (rest : List Lexeme) :
    Follows k (notIf negated ++ keyword .like :: rest) := by
  cases negated <;> exact follows_cons (q := 4) rfl fits _

/-- `LIKE` waits for its pattern. -/
theorem run_ended_like {k : Nat} (fits : 5 ≤ k) (le : demand ps ≤ 4) (r : Reading) (negated : Bool) :
    runWith escapes ⟨.ended r k, ps, outer⟩ (notIf negated ++ keyword .like :: rest) =
      runWith escapes ⟨.operand, .like r negated :: ps, outer⟩ rest := by
  cases negated with
  | false =>
    rw [notIf_false, List.nil_append, run_ended (q := 4) rfl (by omega) (by omega) le, goOn,
      if_pos fits, Option.bind_some]
  | true =>
    rw [notIf_true, List.singleton_append, run_ended (q := 4) rfl (by omega) (by omega) le, goOn,
      if_pos fits, Option.bind_some, runWith, stepWith_of_ne (l := .keyword .like) (by simp), step,
      Option.bind_some]

theorem Reads.run_like {ls : List Lexeme} {r : Reading} {k : Nat} (h : Reads escapes ls r k)
    (fits : 5 ≤ k) (negated : Bool) (le : demand ps ≤ 4) :
    runWith escapes ⟨.operand, ps, outer⟩ (ls ++ (notIf negated ++ keyword .like :: rest)) =
      runWith escapes ⟨.operand, .like r negated :: ps, outer⟩ rest := by
  rw [h ps outer _ (by omega) (follows_like (by omega) negated rest), run_ended_like fits le]

/-- `IN` opens its values. -/
theorem Reads.run_in {ls : List Lexeme} {r : Reading} {k : Nat} (h : Reads escapes ls r k)
    (fits : 5 ≤ k) (negated : Bool) (le : demand ps ≤ 4) :
    runWith escapes ⟨.operand, ps, outer⟩
      (ls ++ (notIf negated ++ keyword .in :: .opening :: rest)) =
      runWith escapes ⟨.opened, [], (.inList r [] negated, ps) :: outer⟩ rest := by
  cases negated with
  | false =>
    rw [notIf_false, List.nil_append, h.run_test fits rfl le, goOn, if_pos fits,
      Option.bind_some, runWith, stepWith_expecting, step, Option.bind_some]
  | true =>
    rw [notIf_true, List.singleton_append, h.run_test fits rfl le, goOn, if_pos fits,
      Option.bind_some, runWith, stepWith_of_ne (l := .keyword .in) (by simp), step,
      Option.bind_some, runWith, stepWith_expecting, step, Option.bind_some]

theorem Reads.like {ls rs : List Lexeme} {r p : Reading} {j k : Nat} (h : Reads escapes ls r j)
    (fits : 5 ≤ j) (pattern : Reads escapes rs p k) (fits' : 5 ≤ k) (negated : Bool) :
    Reads escapes (ls ++ (notIf negated ++ keyword .like :: rs)) (.like r p negated) 4 := by
  intro ps outer rest le follows
  have operand := pattern (.like r negated :: ps) outer rest fits' (follows.mono (by omega))
  rw [List.append_assoc, List.append_assoc, List.cons_append, h.run_like fits negated le, operand]
  exact run_build (p := .like r negated) follows p k

/-- `ESCAPE` takes the test in front of it for its left operand. -/
theorem Reads.run_escape {ls rs : List Lexeme} {r p : Reading} {i j : Nat}
    (h : Reads true ls r i) (fits : 5 ≤ i) (plain : r.isEscaping = false)
    (pattern : Reads true rs p j) (fits' : 5 ≤ j) (negated : Bool) (le : demand ps ≤ 4)
    (outer : List (Bracket × List Pending)) (rest : List Lexeme) :
    runWith true ⟨.operand, ps, outer⟩
      (ls ++ (notIf negated ++ keyword .like :: (rs ++ keyword .escape :: rest))) =
      runWith true ⟨.operand, .like (.escaping (.like r p negated)) false :: ps, outer⟩ rest := by
  have goesOn : Follows j (.keyword .escape :: rest) := by
    rintro _ ⟨⟩
    exact ⟨5, rfl, fits'⟩
  have settled : settle 5 p j (.like r negated :: ps) = (p, j, .like r negated :: ps) := by
    rw [settle]
    exact if_neg (show ¬5 ≤ 4 by decide)
  have waits : runWith true ⟨.operand, .like r negated :: ps, outer⟩
      (rs ++ keyword .escape :: rest) =
        runWith true ⟨.operand, .like (.escaping (.like r p negated)) false :: ps, outer⟩ rest := by
    rw [pattern (.like r negated :: ps) outer _ fits' goesOn, runWith, ReadState.stepWith,
      if_pos rfl, ReadState.escape, settled]
    simp only [fits', plain, and_self, if_true]
    rfl
  rw [h.run_like fits negated le, waits]

theorem Reads.escape {ls rs es : List Lexeme} {r p x : Reading} {i j k : Nat}
    (h : Reads true ls r i) (fits : 5 ≤ i) (plain : r.isEscaping = false)
    (pattern : Reads true rs p j) (fits' : 5 ≤ j) (escape : Reads true es x k) (fits'' : 5 ≤ k)
    (negated : Bool) :
    Reads true (ls ++ (notIf negated ++ keyword .like :: (rs ++ keyword .escape :: es)))
      (.like (.escaping (.like r p negated)) x false) 4 := by
  intro ps outer rest le follows
  have last := escape (.like (.escaping (.like r p negated)) false :: ps) outer rest fits''
    (follows.mono (by omega))
  rw [List.append_assoc, List.append_assoc, List.cons_append, List.append_assoc, List.cons_append,
    h.run_escape fits plain pattern fits' negated le, last]
  exact run_build (p := .like (.escaping (.like r p negated)) false) follows x k

/-! ### Primaries -/

theorem run_atomic {as ls : List Lexeme} (atomic : ls.all Lexeme.isAtomic = true) :
    runWith escapes ⟨.atom as, ps, outer⟩ (ls ++ rest) =
      runWith escapes ⟨.atom (as ++ ls), ps, outer⟩ rest := by
  induction ls generalizing as with
  | nil => simp
  | cons l ls ih =>
    rw [List.all_cons, Bool.and_eq_true] at atomic
    have word : l ≠ .keyword .escape := by
      rintro rfl
      cases atomic.1
    have next : step ⟨.atom as, ps, outer⟩ l = some ⟨.atom (as ++ [l]), ps, outer⟩ := by
      cases l with
      | opening => cases atomic.1
      | _ => simp [step, atomic.1]
    rw [List.cons_append, runWith, stepWith_of_ne word, next, Option.bind_some, ih atomic.2,
      List.append_assoc]
    rfl

theorem run_begin_atomic {ls : List Lexeme} (ne : ls ≠ [])
    (atomic : ls.all Lexeme.isAtomic = true) :
    runWith escapes ⟨.operand, ps, outer⟩ (ls ++ rest) =
      runWith escapes ⟨.atom ls, ps, outer⟩ rest := by
  cases ls with
  | nil => exact absurd rfl ne
  | cons l ls =>
    rw [List.all_cons, Bool.and_eq_true] at atomic
    have first : begin ps outer l = some ⟨.atom [l], ps, outer⟩ := by
      cases l with
      | keyword k => cases k <;> first | rfl | cases atomic.1
      | operator op => cases atomic.1
      | opening => cases atomic.1
      | _ => simp [begin, atomic.1]
    rw [List.cons_append, runWith, stepWith_operand, first, Option.bind_some, run_atomic atomic.2]
    rfl

theorem Reads.atom {ls : List Lexeme} (ne : ls ≠ []) (atomic : ls.all Lexeme.isAtomic = true) :
    Reads escapes ls (.atom ls) 9 := by
  intro ps outer rest le follows
  rw [run_begin_atomic ne atomic, run_atom follows]

/-- An operand does not start like the end of a bracket, a block or an arm. -/
theorem Reads.head {ls : List Lexeme} {r : Reading} {k : Nat} (h : Reads escapes ls r k) :
    ∃ l ls', ls = l :: ls' ∧ l ≠ .closing ∧ l ≠ .keyword .select ∧ l ≠ .keyword .when := by
  have whole := h [] [] [] (Nat.zero_le k) nofun
  rw [List.append_nil] at whole
  cases ls with
  | nil => cases whole
  | cons l ls =>
    refine ⟨l, ls, rfl, ?_, ?_, ?_⟩
    · rintro rfl
      cases whole
    · rintro rfl
      cases whole
    · rintro rfl
      cases whole

theorem Reads.run_opened {ls : List Lexeme} {r : Reading} {k : Nat} (h : Reads escapes ls r k)
    (rest : List Lexeme) :
    runWith escapes ⟨.opened, ps, outer⟩ (ls ++ rest) =
      runWith escapes ⟨.operand, ps, outer⟩ (ls ++ rest) := by
  obtain ⟨l, ls, rfl, closing, select, -⟩ := h.head
  have same : step ⟨.opened, ps, outer⟩ l = begin ps outer l := by
    simp [step, closing, select]
  rw [List.cons_append, runWith, runWith, stepWith_opened, stepWith_operand, same]

theorem Reads.run_cased {ls : List Lexeme} {r : Reading} {k : Nat} (h : Reads escapes ls r k)
    (rest : List Lexeme) :
    runWith escapes ⟨.cased, ps, outer⟩ (ls ++ rest) =
      runWith escapes ⟨.operand, [], (.caseOperand, ps) :: outer⟩ (ls ++ rest) := by
  obtain ⟨l, ls, rfl, -, -, when⟩ := h.head
  have same : step ⟨.cased, ps, outer⟩ l = begin [] ((.caseOperand, ps) :: outer) l := by
    simp [step]
  rw [List.cons_append, runWith, runWith, stepWith_cased, stepWith_operand, same]

/-! ### Brackets -/

theorem goOn_turn {l : Lexeme} (reach : l.reach = some 0) (b : Bracket) (r : Reading) (k : Nat)
    (ps' : List Pending) :
    goOn r k ps' ((b, ps) :: outer) l = (b.turn r l).map (ofTurn ps outer) := by
  cases l with
  | operator op => cases op <;> cases reach
  | keyword w => cases w <;> first | rfl | cases reach
  | _ => rfl

theorem Reads.run_turn {ls : List Lexeme} {r : Reading} {k : Nat} (h : Reads escapes ls r k)
    {l : Lexeme} (reach : l.reach = some 0) {b : Bracket} {t : Turn} (turn : b.turn r l = some t) :
    runWith escapes ⟨.operand, [], (b, ps) :: outer⟩ (ls ++ l :: rest) =
      runWith escapes (ofTurn ps outer t) rest := by
  have next : Follows k (l :: rest) := follows_cons reach (Nat.zero_le k) rest
  rw [h [] _ _ (Nat.zero_le k) next,
    run_ended reach (by omega) (by omega) (show demand [] ≤ 0 from Nat.le_refl 0),
    goOn_turn reach, turn]
  rfl

theorem Reads.group {ls : List Lexeme} {r : Reading} {k : Nat} (h : Reads escapes ls r k) :
    Reads escapes (.opening :: (ls ++ [closing])) r 9 := by
  intro ps outer rest le follows
  rw [List.cons_append, List.append_assoc, List.singleton_append, runWith, stepWith_operand, begin,
    Option.bind_some, h.run_opened, h.run_turn rfl rfl]
  rfl

inductive ReadsAll (escapes : Bool) : List Lexeme → List Reading → Prop where
  | single {ls : List Lexeme} {r : Reading} {k : Nat} (h : Reads escapes ls r k) :
    ReadsAll escapes ls [r]
  | cons {ls ls' : List Lexeme} {r : Reading} {rs : List Reading} {k : Nat}
    (h : Reads escapes ls r k) (h' : ReadsAll escapes ls' rs) :
    ReadsAll escapes (ls ++ .comma :: ls') (r :: rs)

/-- A bracket that collects items until it closes. -/
structure Collects (b : List Reading → Bracket) (whole : List Reading → Reading) (k : Nat) :
    Prop where
  comma : ∀ rs r, (b rs).turn r .comma = some (.operand (b (rs ++ [r])))
  closing : ∀ rs r, (b rs).turn r .closing = some (.done (whole (rs ++ [r])) k)

theorem collects_call (head : List Lexeme) : Collects (.call head) (.call head) 9 :=
  ⟨fun _ _ => rfl, fun _ _ => rfl⟩

theorem collects_inList (item : Reading) (negated : Bool) :
    Collects (.inList item · negated) (.inList item · negated) 4 :=
  ⟨fun _ _ => rfl, fun _ _ => rfl⟩

namespace ReadsAll

variable {ls : List Lexeme} {rs : List Reading}

theorem run_items {b : List Reading → Bracket} {whole : List Reading → Reading} {k : Nat}
    (h : ReadsAll escapes ls rs) (collects : Collects b whole k) (before : List Reading) :
    runWith escapes ⟨.operand, [], (b before, ps) :: outer⟩ (ls ++ closing :: rest) =
      runWith escapes ⟨.ended (whole (before ++ rs)) k, ps, outer⟩ rest := by
  induction h generalizing before with
  | single h =>
    exact h.run_turn rfl (collects.closing before _)
  | @cons ls ls' r rs k h h' ih =>
    rw [List.append_assoc, List.cons_append, h.run_turn rfl (collects.comma before r), ofTurn, ih,
      List.append_assoc]
    rfl

theorem run_opened (h : ReadsAll escapes ls rs) (rest : List Lexeme) :
    runWith escapes ⟨.opened, ps, outer⟩ (ls ++ rest) =
      runWith escapes ⟨.operand, ps, outer⟩ (ls ++ rest) := by
  cases h with
  | single h => exact h.run_opened rest
  | cons h h' =>
    rw [List.append_assoc]
    exact h.run_opened _

end ReadsAll

theorem Reads.call {head ls : List Lexeme} {rs : List Reading} (ne : head ≠ [])
    (atomic : head.all Lexeme.isAtomic = true) (h : ReadsAll escapes ls rs) :
    Reads escapes (head ++ opening :: (ls ++ [closing])) (.call head rs) 9 := by
  intro ps outer rest le follows
  rw [List.append_assoc, run_begin_atomic ne atomic, List.cons_append, List.append_assoc,
    List.singleton_append, runWith, stepWith_of_ne (l := .opening) (by simp), step, Option.bind_some,
    h.run_opened, h.run_items (collects_call head) []]
  rfl

theorem Reads.emptyCall {head : List Lexeme} (ne : head ≠ [])
    (atomic : head.all Lexeme.isAtomic = true) :
    Reads escapes (head ++ [opening, .closing]) (.call head []) 9 := by
  intro ps outer rest le follows
  rw [List.append_assoc, run_begin_atomic ne atomic]
  rfl

theorem Reads.inList {ls vs : List Lexeme} {r : Reading} {rs : List Reading} {k : Nat}
    (h : Reads escapes ls r k) (fits : 5 ≤ k) (values : ReadsAll escapes vs rs) (negated : Bool) :
    Reads escapes (ls ++ (notIf negated ++ keyword .in :: .opening :: (vs ++ [closing])))
      (.inList r rs negated) 4 := by
  intro ps outer rest le follows
  rw [List.append_assoc, List.append_assoc, List.cons_append, List.cons_append, List.append_assoc,
    List.singleton_append, h.run_in fits negated le, values.run_opened]
  exact values.run_items (collects_inList r negated) []

/-! ### Blocks -/

theorem run_skipping {k m : Nat} {ls : List Lexeme}
    (depth : parenDepth k (ls.filterMap Lexeme.parenthesis?) = some m) (before : List Lexeme) :
    runWith escapes ⟨.skipping k before, ps, outer⟩ (ls ++ rest) =
      runWith escapes ⟨.skipping m (before ++ ls), ps, outer⟩ rest := by
  induction ls generalizing k before with
  | nil =>
    cases depth
    simp
  | cons l ls ih =>
    have other (none : l.parenthesis? = none)
        (next : step ⟨.skipping k before, ps, outer⟩ l =
          some ⟨.skipping k (before ++ [l]), ps, outer⟩) :
        runWith escapes ⟨.skipping k before, ps, outer⟩ (l :: ls ++ rest) =
          runWith escapes ⟨.skipping m (before ++ l :: ls), ps, outer⟩ rest := by
      rw [List.filterMap_cons_none none] at depth
      rw [List.cons_append, runWith, stepWith_skipping, next, Option.bind_some, ih depth,
        List.append_assoc]
      rfl
    cases l with
    | opening =>
      have inside : parenDepth (k + 1) (ls.filterMap Lexeme.parenthesis?) = some m := depth
      rw [List.cons_append, runWith, stepWith_skipping, step, Option.bind_some, ih inside,
        List.append_assoc]
      rfl
    | closing =>
      cases k with
      | zero => cases depth
      | succ k =>
        have outside : parenDepth k (ls.filterMap Lexeme.parenthesis?) = some m := depth
        rw [List.cons_append, runWith, stepWith_skipping, step, Option.bind_some, ih outside,
          List.append_assoc]
        rfl
    | _ => exact other rfl (by simp [step])

/-- The lexemes of a block: `SELECT`, and as many parentheses close as open. -/
structure IsBlock (ls : List Lexeme) : Prop where
  head : ls.head? = some (.keyword .select)
  balanced : IsBalanced (ls.filterMap Lexeme.parenthesis?)

theorem IsBlock.run_opened {block : List Lexeme} (h : IsBlock block) {b : Bracket} {r : Reading}
    {k : Nat} (enclosed : b.enclose block = some (r, k))
    (opens : (b.enclose []).isSome = true) :
    runWith escapes ⟨.opened, [], (b, ps) :: outer⟩ (block ++ closing :: rest) =
      runWith escapes ⟨.ended r k, ps, outer⟩ rest := by
  obtain ⟨ls, rfl⟩ : ∃ ls, block = .keyword .select :: ls := by
    cases block with
    | nil => cases h.head
    | cons l ls => exact ⟨ls, by rw [Option.some.inj h.head]⟩
  have depth : parenDepth 0 (ls.filterMap Lexeme.parenthesis?) = some 0 := h.balanced
  have first : step ⟨.opened, [], (b, ps) :: outer⟩ (.keyword .select) =
      some ⟨.skipping 0 [.keyword .select], [], (b, ps) :: outer⟩ := by
    simp [step, opens]
  rw [List.cons_append, runWith, stepWith_opened, first, Option.bind_some, run_skipping depth,
    runWith, stepWith_skipping, step]
  rw [List.singleton_append, enclosed]
  rfl

theorem Reads.subquery {block : List Lexeme} (h : IsBlock block) :
    Reads escapes (.opening :: (block ++ [closing])) (.subquery block) 9 := by
  intro ps outer rest le follows
  rw [List.cons_append, List.append_assoc, List.singleton_append, runWith, stepWith_operand, begin,
    Option.bind_some]
  exact h.run_opened rfl rfl

theorem Reads.exists {block : List Lexeme} (h : IsBlock block) :
    Reads escapes (.keyword .exists :: .opening :: (block ++ [closing])) (.exists block) 9 := by
  intro ps outer rest le follows
  rw [List.cons_append, List.cons_append, List.append_assoc, List.singleton_append, runWith,
    stepWith_operand, begin, Option.bind_some, runWith, stepWith_expecting, step, Option.bind_some]
  exact h.run_opened rfl rfl

theorem Reads.inSelect {ls block : List Lexeme} {r : Reading} {k : Nat} (h : Reads escapes ls r k)
    (fits : 5 ≤ k) (values : IsBlock block) (negated : Bool) :
    Reads escapes (ls ++ (notIf negated ++ keyword .in :: .opening :: (block ++ [closing])))
      (.inSelect r block negated) 4 := by
  intro ps outer rest le follows
  rw [List.append_assoc, List.append_assoc, List.cons_append, List.cons_append, List.append_assoc,
    List.singleton_append, h.run_in fits negated le]
  exact values.run_opened rfl rfl

theorem Reads.cast {ls target : List Lexeme} {r : Reading} {k : Nat} (h : Reads escapes ls r k)
    (balanced : IsBalanced (target.filterMap Lexeme.parenthesis?)) :
    Reads escapes (.keyword .cast :: .opening :: (ls ++ keyword .as :: (target ++ [closing])))
      (.cast r target) 9 := by
  intro ps outer rest le follows
  rw [List.cons_append, List.cons_append, List.append_assoc, List.cons_append, List.append_assoc,
    List.singleton_append, runWith, stepWith_operand, begin, Option.bind_some, runWith,
    stepWith_expecting, step, Option.bind_some,
    h.run_opened, h.run_turn rfl rfl, ofTurn, run_skipping balanced]
  rfl

/-! ### Cases -/

/-- Arms without the first `WHEN`. -/
inductive ReadsArms (escapes : Bool) : List Lexeme → List (Reading × Reading) → Prop where
  | single {cs rs : List Lexeme} {c r : Reading} {j k : Nat} (hc : Reads escapes cs c j)
    (hr : Reads escapes rs r k) : ReadsArms escapes (cs ++ .keyword .then :: rs) [(c, r)]
  | cons {cs rs ls : List Lexeme} {c r : Reading} {ws : List (Reading × Reading)} {j k : Nat}
    (hc : Reads escapes cs c j) (hr : Reads escapes rs r k) (h : ReadsArms escapes ls ws) :
    ReadsArms escapes (cs ++ .keyword .then :: (rs ++ .keyword .when :: ls)) ((c, r) :: ws)

theorem ReadsArms.run_arms {ls : List Lexeme} {ws : List (Reading × Reading)}
    (h : ReadsArms escapes ls ws) (operand : Option Reading) (before : List (Reading × Reading))
    (follows : Follows 0 rest)
    (ps : List Pending) (outer : List (Bracket × List Pending)) :
    ∃ front c r k, ws = front ++ [(c, r)] ∧
      runWith escapes ⟨.operand, [], (.caseWhen operand before, ps) :: outer⟩ (ls ++ rest) =
        runWith escapes
          ⟨.ended r k, [], (.caseThen operand (before ++ front) c, ps) :: outer⟩ rest := by
  induction h generalizing before with
  | @single cs rs c r j k hc hr =>
    refine ⟨[], c, r, k, rfl, ?_⟩
    rw [List.append_assoc, List.cons_append, hc.run_turn rfl rfl, ofTurn,
      hr [] _ rest (Nat.zero_le k) (follows.mono (Nat.zero_le k)), List.append_nil]
  | @cons cs rs ls c r ws j k hc hr h ih =>
    obtain ⟨front, c', r', k', rfl, runs⟩ := ih (before ++ [(c, r)])
    refine ⟨(c, r) :: front, c', r', k', rfl, ?_⟩
    rw [List.append_assoc, List.cons_append, List.append_assoc, List.cons_append,
      hc.run_turn rfl rfl, ofTurn, hr.run_turn rfl rfl, ofTurn, runs, List.append_assoc]
    rfl

/-- An operand between `CASE` and the first `WHEN`, or none. -/
inductive ReadsOptional (escapes : Bool) : List Lexeme → Option Reading → Prop where
  | none : ReadsOptional escapes [] none
  | some {ls : List Lexeme} {r : Reading} {k : Nat} (h : Reads escapes ls r k) :
    ReadsOptional escapes ls (some r)

theorem Reads.case {os ls es : List Lexeme} {operand otherwise : Option Reading}
    {ws : List (Reading × Reading)} (ho : ReadsOptional escapes os operand)
    (h : ReadsArms escapes ls ws) (he : ReadsOptional escapes es otherwise) :
    Reads escapes (.keyword .case :: (os ++ keyword .when :: (ls ++
      ((if otherwise.isSome then [keyword .else] else []) ++ (es ++ [keyword .end])))))
      (.case operand ws otherwise) 9 := by
  intro ps outer rest le follows
  have started : ∀ rest, runWith escapes ⟨.operand, ps, outer⟩ (.keyword .case ::
      (os ++ keyword .when :: rest)) =
        runWith escapes ⟨.operand, [], (.caseWhen operand [], ps) :: outer⟩ rest := by
    intro rest
    rw [runWith, stepWith_operand, begin, Option.bind_some]
    cases ho with
    | none => rfl
    | some h =>
      rw [h.run_cased, h.run_turn rfl rfl]
      rfl
  rw [List.cons_append, List.append_assoc, List.cons_append, started, List.append_assoc]
  cases he with
  | none =>
    have last : Follows 0 (.keyword .end :: rest) := follows_cons rfl (Nat.le_refl 0) rest
    obtain ⟨front, c, r, k, rfl, runs⟩ := h.run_arms operand [] last ps outer
    simp only [Option.isSome_none, Bool.false_eq_true, if_false, List.nil_append,
      List.singleton_append]
    rw [runs]
    rfl
  | @some es e j he =>
    have last : Follows 0 (.keyword .else :: (es ++ keyword .end :: rest)) :=
      follows_cons rfl (Nat.le_refl 0) _
    obtain ⟨front, c, r, k, rfl, runs⟩ := h.run_arms operand [] last ps outer
    simp only [Option.isSome_some, if_true, List.append_assoc, List.cons_append, List.nil_append]
    have turned : runWith escapes ⟨.ended r k, [], (.caseThen operand ([] ++ front) c, ps) :: outer⟩
        (.keyword .else :: (es ++ keyword .end :: rest)) =
        runWith escapes ⟨.operand, [], (.caseElse operand (front ++ [(c, r)]), ps) :: outer⟩
          (es ++ keyword .end :: rest) := rfl
    rw [runs, turned, he.run_turn rfl rfl]
    rfl

end SelectCompiler
