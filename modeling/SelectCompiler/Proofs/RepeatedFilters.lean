import SelectCompiler.Proofs.Placeholders
import SelectCompiler.Proofs.Tree.NodeTokens
import SelectCompiler.Tree.Builders

/-!
Repeated filters. Main statement: conditions joined by `AND` are written one behind the other however
they are grouped, and so are conditions joined by `OR`. A query with several filters comes out the same
whether they are added one by one or as one tree.
-/

namespace SelectCompiler

open Token (clause enclosedIf optionalClause listClause)

variable {d : Dialect} {o : Options} {op : BinaryOp}

/-! ### Conditions joined by one operator -/

namespace Expr

/-- An expression that joins others by an operator, in this order and grouped in any way. The members
may apply the operator themselves. -/
inductive Connects (op : BinaryOp) : List Expr → Expr → Prop where
  | single (e : Expr) : Connects op [e] e
  | pair {ls rs : List Expr} {l r : Expr} (type : SqlType) (left : Connects op ls l)
      (right : Connects op rs r) : Connects op (ls ++ rs) (.binary l op r type)

/-- Whether a member of a chain has parentheses: an `OR` has them among conditions joined by `AND`. -/
def isSetOff (op : BinaryOp) (e : Expr) : Bool := op == .and && e.isBinary .or

def memberTokens (d : Dialect) (o : Options) (op : BinaryOp) (e : Expr) : List Token :=
  enclosedIf (e.isSetOff op) (e.tokens d o)

namespace Connects

theorem ne_nil {ps : List Expr} {e : Expr} (h : e.Connects op ps) : ps ≠ [] := by
  induction h with
  | single e => exact List.cons_ne_nil e []
  | pair type left right ihl ihr =>
    intro empty
    exact ihl (List.append_eq_nil_iff.1 empty).1

theorem faults_eq {ps : List Expr} {e : Expr} (h : e.Connects op ps) :
    e.faults d o = ps.flatMap (Expr.faults d o) := by
  induction h with
  | single e => simp
  | pair type left right ihl ihr => rw [Expr.faults, ihl, ihr, List.flatMap_append]

end Connects

section Connectives

variable (connective : op = .and ∨ op = .or)
include connective

/-- Of two nested connectives only an `OR` in an `AND` binds less tightly. -/
theorem rank_lt_connective (e : Expr) : decide (e.rank < op.rank) = e.isSetOff op := by
  cases e with
  | unary inner operand type => rcases connective with rfl | rfl <;> cases inner <;> rfl
  | binary left inner right type => rcases connective with rfl | rfl <;> cases inner <;> rfl
  | _ => rcases connective with rfl | rfl <;> rfl

theorem isBinary_of_rank {e : Expr} (same : e.rank = op.rank) : e.isBinary op = true := by
  cases e with
  | unary inner operand type => rcases connective with rfl | rfl <;> cases inner <;> cases same
  | binary left inner right type =>
    have own : inner = op := by
      rcases connective with rfl | rfl <;> cases inner <;> first | rfl | cases same
    simp [isBinary, own]
  | _ => rcases connective with rfl | rfl <;> cases same

theorem mixesWith_connective (e : Expr) : e.mixesWith op = false := by
  have value : op.isValueOperator = false := by rcases connective with rfl | rfl <;> rfl
  cases e with
  | binary left inner right type => simp [mixesWith, BinaryOp.mixesWith, value]
  | _ => rfl

theorem enclosedOnLeft_connective (e : Expr) : e.enclosedOnLeft op = e.isSetOff op := by
  have compares : op.isComparison = false := by rcases connective with rfl | rfl <;> rfl
  rw [enclosedOnLeft, rank_lt_connective connective, mixesWith_connective connective, compares]
  simp

/-- The operand on the right gets its parentheses where the one on the left would. -/
theorem enclosedOnRight_connective (e : Expr) : e.enclosedOnRight op = e.isSetOff op := by
  have associative : op.isAssociative = true := by rcases connective with rfl | rfl <;> rfl
  have chain : (e.rank == op.rank && !(op.isAssociative && e.isBinary op)) = false := by
    cases same : e.rank == op.rank with
    | false => rfl
    | true => simp [associative, isBinary_of_rank connective (beq_iff_eq.1 same)]
  rw [enclosedOnRight, rank_lt_connective connective, mixesWith_connective connective, chain]
  simp

theorem tokens_connective (l r : Expr) (type : SqlType) :
    (Expr.binary l op r type).tokens d o =
      l.memberTokens d o op ++ clause [op.spelling] ++ r.memberTokens d o op := by
  have sign : .space :: d.operatorToken op :: [.space] = clause [op.spelling] := by
    rcases connective with rfl | rfl <;> rfl
  have infixed : (op == .concat && d.concatOperator.isNone) = false := by
    rcases connective with rfl | rfl <;> rfl
  rw [Expr.tokens, Dialect.binaryTokens, if_neg (by simp [infixed]),
    enclosedOnLeft_connective connective, enclosedOnRight_connective connective, ← sign]
  simp [memberTokens]

/-- A chain of the operator never has parentheses within a chain. -/
theorem memberTokens_binary (l r : Expr) (type : SqlType) :
    (Expr.binary l op r type).memberTokens d o op = (Expr.binary l op r type).tokens d o := by
  have bare : (Expr.binary l op r type).isSetOff op = false := by
    rcases connective with rfl | rfl <;> rfl
  simp [memberTokens, bare, enclosedIf]

end Connectives

end Expr

theorem intercalate_append_of_ne_nil {α : Type} (sep : List α) {xs ys : List (List α)} (hx : xs ≠ [])
    (hy : ys ≠ []) : sep.intercalate (xs ++ ys) = sep.intercalate xs ++ sep ++ sep.intercalate ys := by
  induction xs with
  | nil => exact absurd rfl hx
  | cons x xs ih =>
    cases xs with
    | nil => simp [List.intercalate_cons_of_ne_nil hy]
    | cons x' xs =>
      have rest := ih (List.cons_ne_nil x' xs)
      rw [List.cons_append, List.cons_append, List.intercalate_cons_cons, ← List.cons_append, rest,
        List.intercalate_cons_cons]
      simp only [List.append_assoc]

namespace Expr.Connects

variable {ps : List Expr} {e : Expr}

/-- A chain within a chain of the same operator is written as its members. -/
theorem memberTokens_eq (connective : op = .and ∨ op = .or) (h : e.Connects op ps) :
    e.memberTokens d o op = (clause [op.spelling]).intercalate (ps.map (memberTokens d o op)) := by
  induction h with
  | single e => simp
  | @pair ls rs l r type left right ihl ihr =>
    have hl : ls.map (memberTokens d o op) ≠ [] := by simpa using left.ne_nil
    have hr : rs.map (memberTokens d o op) ≠ [] := by simpa using right.ne_nil
    rw [memberTokens_binary connective, tokens_connective connective, ihl, ihr, List.map_append,
      intercalate_append_of_ne_nil _ hl hr]

theorem tokens_eq (connective : op = .and ∨ op = .or) (h : e.Connects op ps)
    (several : 2 ≤ ps.length) :
    e.tokens d o = (clause [op.spelling]).intercalate (ps.map (memberTokens d o op)) := by
  rw [← h.memberTokens_eq connective]
  cases h with
  | single e => exact absurd several (Nat.not_succ_le_self 1)
  | pair type left right => exact (memberTokens_binary connective _ _ type).symm

theorem eq_of_singleton {p : Expr} (h : e.Connects op [p]) : e = p := by
  generalize only : [p] = ps at h
  cases h with
  | single e => exact (List.cons.inj only).1.symm
  | @pair ls rs l r type left right =>
    have length : 1 = ls.length + rs.length := by simpa using congrArg List.length only
    have hl := List.length_pos_iff.2 left.ne_nil
    have hr := List.length_pos_iff.2 right.ne_nil
    omega

/-- Only the members count for the written form. -/
theorem tokens_congr (connective : op = .and ∨ op = .or) {e' : Expr} (h : e.Connects op ps)
    (h' : e'.Connects op ps) : e'.tokens d o = e.tokens d o := by
  by_cases several : 2 ≤ ps.length
  · rw [h.tokens_eq connective several, h'.tokens_eq connective several]
  · have one : ps.length = 1 := by
      have := List.length_pos_iff.2 h.ne_nil
      omega
    obtain ⟨p, rfl⟩ := List.length_eq_one_iff.1 one
    rw [h.eq_of_singleton, h'.eq_of_singleton]

end Expr.Connects

/-! ### The text of a chain -/

namespace Dialect

variable (d)

/-- The texts of conditions one behind the other, the placeholders numbered on from one to the next. -/
def memberTexts (o : Options) (op : BinaryOp) : (position : Nat) → List Expr → List String
  | _, [] => []
  | position, p :: ps =>
    let text := d.textOf position (p.tokens d o)
    (if p.isSetOff op then "(" ++ text ++ ")" else text) ::
      memberTexts o op (Token.after position (p.tokens d o)) ps

variable {d}

theorem textOf_memberTokens (position : Nat) (p : Expr) :
    d.textOf position (p.memberTokens d o op) =
      if p.isSetOff op then "(" ++ d.textOf position (p.tokens d o) ++ ")"
      else d.textOf position (p.tokens d o) := by
  unfold Expr.memberTokens
  cases p.isSetOff op with
  | false => rfl
  | true => exact textOf_enclosed position (p.tokens d o)

theorem textOf_chain (position : Nat) (ps : List Expr) :
    d.textOf position ((clause [op.spelling]).intercalate (ps.map (Expr.memberTokens d o op))) =
      (" " ++ op.spelling ++ " ").intercalate (d.memberTexts o op position ps) := by
  induction ps generalizing position with
  | nil => rfl
  | cons p ps ih =>
    have after : Token.after position (p.memberTokens d o op) =
        Token.after position (p.tokens d o) := Token.after_enclosedIf position _ _
    cases ps with
    | nil => simp [memberTexts, textOf_memberTokens]
    | cons p' ps =>
      have sign (n : Nat) : d.textOf n (clause [op.spelling]) = " " ++ op.spelling ++ " " := by
        rw [textOf_clause, String.intercalate_singleton]
      rw [List.map_cons, List.map_cons, List.intercalate_cons_cons, textOf_append, textOf_append,
        textOf_memberTokens, sign, Token.after_append, Token.after_clause, after, ← List.map_cons,
        ih]
      simp only [memberTexts, String.intercalate_cons_cons]

end Dialect

theorem bindings_chain (ps : List Expr) :
    Token.bindings ((clause [op.spelling]).intercalate (ps.map (Expr.memberTokens d o op))) =
      ps.flatMap fun p => Token.bindings (p.tokens d o) := by
  have contents (p : Expr) : Token.contents (p.memberTokens d o op) = Token.contents (p.tokens d o) :=
    Token.contents_enclosedIf _ _
  rw [← bindings_contents, Token.contents_intercalate _ (Token.contents_clause _), List.flatMap_map,
    Token.bindings, List.filterMap_flatMap]
  refine List.flatMap_congr fun p _ => ?_
  rw [contents, ← Token.bindings, bindings_contents]

/-! ### Filtered queries -/

namespace Select

/-- What a block writes before the place of its conditions. -/
def beforeFilter (d : Dialect) (o : Options) (s : Select) : List Token :=
  [.word "SELECT", .space] ++ Dialect.distinctTokens s.distinct ++
    d.frontTokens (s.clauses d o).limit (s.clauses d o).offset ++
    Dialect.projectionTokens (s.clauses d o).projections ++ d.sourceTokens (s.clauses d o).sources ++
    (s.clauses d o).joins.flatten

/-- What a block writes behind the place of its conditions. -/
def behindFilter (d : Dialect) (o : Options) (s : Select) : List Token :=
  listClause ["GROUP", "BY"] (s.clauses d o).groupBy ++
    optionalClause ["HAVING"] (s.clauses d o).having ++
    d.orderingTokens (s.clauses d o).orderings (s.clauses d o).offset.isSome ++
    d.backTokens (s.clauses d o).limit (s.clauses d o).offset

theorem tokens_around_filter (s : Select) :
    s.tokens d o = s.beforeFilter d o ++
      optionalClause ["WHERE"] (s.predicate.map (Expr.tokens d o)) ++ s.behindFilter d o := by
  rw [tokens_eq, Dialect.assemble_eq, beforeFilter, behindFilter]
  simp only [List.append_assoc]
  rfl

variable {s : Select} (unfiltered : s.predicate = none)
include unfiltered

theorem filter_eq (e : Expr) : s.filter e = { s with predicate := some e } := by
  simp [filter, unfiltered]

theorem tokens_filter (e : Expr) : (s.filter e).tokens d o =
    s.beforeFilter d o ++ (clause ["WHERE"] ++ e.tokens d o) ++ s.behindFilter d o := by
  rw [filter_eq unfiltered, tokens_around_filter]
  rfl

theorem faults_filter_congr {e e' : Expr} (same : e'.faults d o = e.faults d o) :
    (s.filter e').faults d o = (s.filter e).faults d o := by
  have once (e : Expr) : (some e).toList.flatMap (Expr.faults d o) = e.faults d o := by simp
  rw [filter_eq unfiltered, filter_eq unfiltered, faults_eq, faults_eq]
  simp only [once, same]
  rfl

theorem foldl_filter (ps : List Expr) {qs : List Expr} {e : Expr} (h : e.Connects .and qs) :
    ∃ e', Expr.Connects .and (qs ++ ps) e' ∧ ps.foldl filter (s.filter e) = s.filter e' := by
  induction ps generalizing qs e with
  | nil => exact ⟨e, by simpa using h, rfl⟩
  | cons p ps ih =>
    have added : (s.filter e).filter p = s.filter (e.combine .and p) := by
      simp [filter, unfiltered]
    obtain ⟨e', connects, same⟩ := ih (h.pair _ (.single p))
    refine ⟨e', ?_, ?_⟩
    · simpa using connects
    · rw [List.foldl_cons, added]
      exact same

/-- Filters added one by one make a chain of all of them. -/
theorem exists_foldl_filter {ps : List Expr} (ne : ps ≠ []) :
    ∃ e, Expr.Connects .and ps e ∧ ps.foldl filter s = s.filter e := by
  cases ps with
  | nil => exact absurd rfl ne
  | cons p ps => exact foldl_filter unfiltered ps (.single p)

theorem compile_filter_congr (connective : op = .and ∨ op = .or) {ps : List Expr} {e e' : Expr}
    (h : e.Connects op ps) (h' : e'.Connects op ps) :
    (s.filter e').compile d o = (s.filter e).compile d o := by
  have faults : (s.filter e').faults d o = (s.filter e).faults d o :=
    faults_filter_congr unfiltered (h'.faults_eq.trans h.faults_eq.symm)
  have tokens : (s.filter e').tokens d o = (s.filter e).tokens d o := by
    rw [tokens_filter unfiltered, tokens_filter unfiltered, h.tokens_congr connective h']
  rw [compile, compile, faults, tokens]

end Select

/-- Conditions joined by one connective give the same result in whatever way they are grouped, and
joined by `AND` also if they are added one by one. In the text they stand one behind the other at the
place of the filter, where an `OR` has parentheses among conditions joined by `AND` and nothing has
them among those joined by `OR`. -/
theorem Select.compile_filter (d : Dialect) (o : Options) {s : Select} (unfiltered : s.predicate = none)
    (connective : op = .and ∨ op = .or) {ps : List Expr} {e : Expr} (h : e.Connects op ps) :
    (∀ e' : Expr, e'.Connects op ps → (s.filter e').compile d o = (s.filter e).compile d o) ∧
    (op = .and → (ps.foldl Select.filter s).compile d o = (s.filter e).compile d o) ∧
    s.tokens d o = s.beforeFilter d o ++ s.behindFilter d o ∧
    ∀ out, (s.filter e).compile d o = .ok out → 2 ≤ ps.length →
      out.sql = d.textOf 1 (s.beforeFilter d o) ++ " WHERE " ++
        (" " ++ op.spelling ++ " ").intercalate
          (d.memberTexts o op (Token.after 1 (s.beforeFilter d o)) ps) ++
        d.textOf (Token.after 1 (s.beforeFilter d o ++ ps.flatMap (Expr.tokens d o)))
          (s.behindFilter d o) ∧
      out.parameters = Token.bindings (s.beforeFilter d o) ++
        (ps.flatMap fun p => Token.bindings (p.tokens d o)) ++
        Token.bindings (s.behindFilter d o) := by
  refine ⟨fun e' h' => compile_filter_congr unfiltered connective h h', ?one, ?around, ?text⟩
  case one =>
    rintro rfl
    obtain ⟨e', h', added⟩ := exists_foldl_filter unfiltered h.ne_nil
    rw [added]
    exact compile_filter_congr unfiltered connective h h'
  case around =>
    rw [tokens_around_filter, unfiltered]
    simp [optionalClause]
  case text =>
    intro out compiled several
    have tokens := tokens_filter (d := d) (o := o) unfiltered e
    have chain := h.tokens_eq (d := d) (o := o) connective several
    have bound : Token.bindings (e.tokens d o) = ps.flatMap fun p => Token.bindings (p.tokens d o) := by
      rw [chain, bindings_chain]
    constructor
    · have keyword (n : Nat) : d.textOf n (clause ["WHERE"]) = " WHERE " := by
        simp [Dialect.textOf, Dialect.texts, clause, Token.words, Dialect.tokenText]
      have passed (n : Nat) : Token.after n (e.tokens d o) =
          Token.after n (ps.flatMap (Expr.tokens d o)) := by
        rw [Token.after, Token.after, bound, Token.bindings, List.filterMap_flatMap]
        rfl
      rw [compile_sql compiled, tokens, Dialect.textOf_append, Dialect.textOf_append,
        Dialect.textOf_append, Token.after_append, Token.after_append, Token.after_append,
        Token.after_clause, passed, keyword, chain, Dialect.textOf_chain]
      simp only [String.append_assoc]
    · obtain ⟨-, rfl⟩ := compile_ok compiled
      rw [Dialect.command, tokens, Token.bindings_append, Token.bindings_append,
        Token.bindings_append, Token.bindings_clause, bound, List.nil_append]

/-- A page of orders, of which some are to be kept. -/
def pageOfOrders : Select where
  projections := [⟨.column ⟨"id", none, .int, false⟩, ""⟩]
  sources := [.table "orders" none none]
  limit := some (.parameter ⟨"count", .int 10, .int⟩)

/-- Of one customer, paid or small, and not closed. -/
def orderConditions : List Expr :=
  let column (name : String) : Expr := .column ⟨name, none, .int, false⟩
  [.binary (column "customer") .equal (.parameter ⟨"customer", .int 7, .int⟩) .boolean,
    .binary (column "paid") .or
      (.binary (column "total") .lessThan (.parameter ⟨"small", .int 20, .int⟩) .boolean) .boolean,
    .unary .not (column "closed") .boolean]

theorem compile_filter_pageOfOrders :
    ∃ e out, Expr.Connects .and orderConditions e ∧
      (pageOfOrders.filter e).compile .postgres {} = .ok out ∧
      (orderConditions.foldl Select.filter pageOfOrders).compile .postgres {} = .ok out ∧
      out.sql = "SELECT \"id\" FROM \"orders\" WHERE \"customer\" = $1 AND " ++
        "(\"paid\" OR \"total\" < $2) AND NOT \"closed\" LIMIT $3" := by
  -- grouped to the right, unlike the tree that three filters make
  have connects : Expr.Connects .and orderConditions _ :=
    .pair .boolean (.single _) (.pair .boolean (.single _) (.single _))
  obtain ⟨-, one, -, text⟩ :=
    Select.compile_filter .postgres {} (s := pageOfOrders) rfl (.inl rfl) connects
  obtain ⟨sql, -⟩ := text _ rfl (by decide)
  refine ⟨_, _, connects, rfl, one rfl, ?_⟩
  rw [sql]
  decide +kernel

end SelectCompiler
