import SelectCompiler.Proofs.Acceptance
import SelectCompiler.Proofs.Placeholders
import SelectCompiler.Proofs.Tokens.TreeComparison
import SelectCompiler.Proofs.Tree.NodeLeaves

/-!
Constants that are bound, and constants in the text. Main statement: a query whose constants are in
the text reads like the one that binds them, with every unnamed placeholder replaced by its constant
and the others numbered anew; if only binding works, some constant has no written form.
-/

namespace SelectCompiler

/-! ### Faults -/

theorem Node.mem_ownFaults_inlined {d : Dialect} {k : Node} {f : Fault} :
    f ∈ k.ownFaults d ⟨false⟩ ↔
      f ∈ k.ownFaults d ⟨true⟩ ∨ ∃ l, k = .expr (.literal l) ∧ l.fault? = some f := by
  cases k with
  | expr e =>
    cases e with
    | literal l => simp [ownFaults, literalFaults]
    | _ => simp [ownFaults]
  | source s => cases s <;> simp [ownFaults]
  | _ => simp [ownFaults]

/-- Whether constants are bound matters to the faults of constants only. -/
theorem Select.mem_faults_inlined {d : Dialect} (hd : d.BuiltIn) {s : Select} {f : Fault} :
    f ∈ s.faults d ⟨false⟩ ↔
      f ∈ s.faults d ⟨true⟩ ∨
        ∃ l, (Node.block s).Contains (.expr (.literal l)) ∧ l.fault? = some f := by
  have faults (o : Options) := Node.mem_faults_iff (o := o) hd (.block s) f
  simp only [Node.faults] at faults
  rw [faults, faults]
  constructor
  · rintro ⟨k, contained, h⟩
    rcases Node.mem_ownFaults_inlined.1 h with own | ⟨l, rfl, unwritable⟩
    · exact .inl ⟨k, contained, own⟩
    · exact .inr ⟨l, contained, unwritable⟩
  · rintro (⟨k, contained, h⟩ | ⟨l, contained, h⟩)
    · exact ⟨k, contained, Node.mem_ownFaults_inlined.2 (.inl h)⟩
    · exact ⟨_, contained, Node.mem_ownFaults_inlined.2 (.inr ⟨l, rfl, h⟩)⟩

theorem Node.eq_of_literal_mem_ownLeaves {k : Node} {l : Literal}
    (h : Leaf.literal l ∈ k.ownLeaves) : k = .expr (.literal l) := by
  cases k with
  | expr e =>
    cases e with
    | unary op operand type => cases op <;> simp [ownLeaves, UnaryOp.leaves] at h
    | _ => simp_all [ownLeaves]
  | source s => cases s <;> simp [ownLeaves] at h
  | _ => simp [ownLeaves] at h

/-- A value without a name is bound for a constant of the tree. -/
theorem Select.literal_of_mem_bound {d : Dialect} (hd : d.BuiltIn) {o : Options} {s : Select}
    {b : Binding} (h : b ∈ s.bound d.pagingOrder o) (unnamed : b.name = none) :
    (Node.block s).Contains (.expr (.literal ⟨b.value, b.type⟩)) := by
  obtain ⟨leaf, mem, bound⟩ := List.mem_filterMap.1 h
  obtain ⟨k, contained, own⟩ := (Node.mem_leaves_iff (.block s) leaf).1 ((mem_leaves hd).1 mem)
  cases leaf with
  | literal l =>
    obtain rfl := Node.eq_of_literal_mem_ownLeaves own
    rw [Leaf.binding?] at bound
    split at bound <;> cases bound
    exact contained
  | parameter p =>
    cases bound
    cases unnamed
  | _ => cases bound

/-! ### Texts -/

namespace Dialect

variable (d : Dialect)

/-- A constant as it stands in a text, if it can. -/
def literalText (l : Literal) : Except Fault String :=
  match l.fault? with
  | some fault => .error fault
  | none => .ok (d.constantText (d.constant l.value l.type))

/-- Texts with bound values between them, of which only the named ones have a placeholder. -/
def inlined : (position : Nat) → String → List (Binding × String) → Except Fault String
  | _, s, [] => .ok s
  | position, s, (⟨some _, _, _⟩, t) :: rest => do
    let tail ← inlined (position + 1) t rest
    return s ++ d.placeholderText position ++ tail
  | position, s, (⟨none, value, type⟩, t) :: rest => do
    let text ← d.literalText ⟨value, type⟩
    let tail ← inlined position t rest
    return s ++ text ++ tail

/-- A token of the text in which no constant is bound. -/
def inlinedToken : Token → Token
  | .placeholder ⟨none, value, type⟩ => .constant (d.constant value type)
  | t => t

variable {d}

theorem literalText_eq_error_iff {l : Literal} {f : Fault} :
    d.literalText l = .error f ↔ l.fault? = some f := by
  unfold literalText
  cases l.fault? <;> simp

theorem inlined_append (position : Nat) (s t : String) (rest : List (Binding × String)) :
    d.inlined position (s ++ t) rest = (s ++ ·) <$> d.inlined position t rest := by
  cases rest with
  | nil => rfl
  | cons p rest =>
    obtain ⟨⟨name, value, type⟩, u⟩ := p
    cases name with
    | some name => simp [inlined, String.append_assoc]
    | none => simp [inlined, String.append_assoc]

theorem inlined_pieces (ts : List Token)
    (writable : ∀ b ∈ Token.bindings ts, b.name = none → (⟨b.value, b.type⟩ : Literal).fault? = none)
    (position : Nat) :
    d.inlined position (d.plainText (Token.pieces ts).1)
        ((Token.bindings ts).zip ((Token.pieces ts).2.map d.plainText)) =
      .ok (String.join (d.texts position (ts.map d.inlinedToken))) := by
  -- Of the two texts only the first moves on at an unnamed placeholder, so the position is general.
  induction ts generalizing position with
  | nil => rfl
  | cons t ts ih =>
    cases h : t.binding? with
    | none =>
      have same : d.inlinedToken t = t := by cases t <;> first | rfl | cases h
      rw [Token.bindings, List.filterMap_cons_none h, ← Token.bindings] at writable ⊢
      rw [Token.pieces_cons h, plainText_cons, inlined_append, ih writable, List.map_cons, same,
        texts, String.join_cons, h, tokenText_of_unbound h position]
      rfl
    | some b =>
      obtain ⟨name, value, type⟩ := b
      cases t <;> cases h
      have bound : Token.bindings (.placeholder ⟨name, value, type⟩ :: ts) =
          ⟨name, value, type⟩ :: Token.bindings ts := rfl
      rw [bound] at writable ⊢
      have rest := ih fun b hb => writable b (List.mem_cons_of_mem _ hb)
      rw [Token.pieces, List.map_cons, List.zip_cons_cons, plainText_nil]
      cases name with
      | some name =>
        rw [inlined, rest]
        simp [inlinedToken, texts, Token.binding?, tokenText]
      | none =>
        have text : d.literalText ⟨value, type⟩ = .ok (d.constantText (d.constant value type)) := by
          rw [literalText, writable ⟨none, value, type⟩ List.mem_cons_self rfl]
        rw [inlined, rest, text]
        simp [inlinedToken, texts, Token.binding?, tokenText]
        rfl

theorem binding?_inlinedToken (t : Token) :
    (d.inlinedToken t).binding? = t.binding?.filter fun b => b.name.isSome := by
  cases t with
  | placeholder b =>
    obtain ⟨name, value, type⟩ := b
    cases name <;> rfl
  | _ => rfl

theorem bindings_inlined (ts : List Token) :
    Token.bindings (ts.map d.inlinedToken) = (Token.bindings ts).filter fun b => b.name.isSome := by
  rw [Token.bindings, List.filterMap_map, Token.bindings, List.filter_filterMap]
  exact List.filterMap_congr fun t _ => binding?_inlinedToken t

/-- The comparison of a text that binds its constants with the one that has them inside. -/
def inlining (d : Dialect) : Comparison where
  alike t t' := d.inlinedToken t = t'
  apart _ _ := False
  unbound t h := by cases t <;> first | rfl | cases h

theorem inlining_fits (d : Dialect) : d.inlining.Fits d ⟨true⟩ ⟨false⟩ {} id where
  literal l l' h := by
    cases h
    rfl
  negated l l' h := by
    obtain rfl : l = l' := h
    have token : d.inlining.alike (d.literalToken ⟨true⟩ l) (d.literalToken ⟨false⟩ l) := rfl
    exact (Comparison.Compares.single token rfl).enclosedIf _
  parameter p p' h := by
    cases h
    rfl

end Dialect

/-- Nothing but the tokens of the constants depends on whether they are bound. -/
theorem Select.tokens_inlined {d : Dialect} (hd : d.BuiltIn) {s : Select}
    (none : s.faults d ⟨true⟩ = []) :
    s.tokens d ⟨false⟩ = (s.tokens d ⟨true⟩).map d.inlinedToken := by
  have compared := Select.compares hd d.inlining_fits none rfl
  have alike := (compared.of_never_apart fun _ _ => id).2
  have equal : List.Forall₂ (· = ·) ((s.tokens d ⟨true⟩).map d.inlinedToken) (s.tokens d ⟨false⟩) :=
    List.forall₂_map_left_iff.2 alike
  rw [List.forall₂_eq_eq_eq] at equal
  exact equal.symm

/-! ### Compiled queries -/

/-- With its constants in the text, a query reads like the one that binds them, every unnamed
placeholder replaced and the others numbered anew. If it cannot be written, a constant cannot. -/
theorem Select.compile_inlined {d : Dialect} (hd : d.BuiltIn) (s : Select) :
    (∀ plain, s.compile d ⟨false⟩ = .ok plain → ∃ bound, s.compile d ⟨true⟩ = .ok bound ∧
      plain.parameters = bound.parameters.filter (fun b => b.name.isSome) ∧
      ∃ (first : List Token) (rest : List (List Token)),
        rest.length = bound.parameters.length ∧
        s.tokens d ⟨true⟩ =
          first ++ (bound.parameters.zip rest).flatMap (fun p => .placeholder p.1 :: p.2) ∧
        (∀ piece ∈ first :: rest, ∀ t ∈ piece, t.binding? = none) ∧
        bound.sql = d.numbered 1 (d.plainText first) (rest.map d.plainText) ∧
        d.inlined 1 (d.plainText first) (bound.parameters.zip (rest.map d.plainText)) =
          .ok plain.sql) ∧
    ∀ bound fault, s.compile d ⟨true⟩ = .ok bound → s.compile d ⟨false⟩ = .error fault →
      ∃ l, (Node.block s).Contains (.expr (.literal l)) ∧ d.literalText l = .error fault := by
  constructor
  · intro plain h
    obtain ⟨none, rfl⟩ := compile_ok h
    have noneBound : s.faults d ⟨true⟩ = [] := by
      refine List.eq_nil_iff_forall_not_mem.2 fun f mem => ?_
      have : f ∈ s.faults d ⟨false⟩ := (mem_faults_inlined hd).2 (.inl mem)
      rw [none] at this
      cases this
    -- What is bound without a name is a constant of the tree, which would be at fault itself.
    have writable : ∀ b ∈ Token.bindings (s.tokens d ⟨true⟩), b.name = .none →
        (⟨b.value, b.type⟩ : Literal).fault? = .none := by
      intro b mem unnamed
      rw [Select.bindings_tokens hd noneBound] at mem
      have contained := literal_of_mem_bound hd mem unnamed
      refine Option.eq_none_iff_forall_ne_some.2 fun f unwritable => ?_
      have : f ∈ s.faults d ⟨false⟩ := (mem_faults_inlined hd).2 (.inr ⟨_, contained, unwritable⟩)
      rw [none] at this
      cases this
    have tokens := tokens_inlined hd noneBound
    refine ⟨d.command (s.tokens d ⟨true⟩), by rw [compile, noneBound], ?_, _, _,
      Token.length_pieces (s.tokens d ⟨true⟩), (Token.flatten_pieces _).symm,
      fun piece hp t ht => (Token.mem_pieces hp ht).2, Dialect.texts_pieces _ 1, ?_⟩
    · rw [Dialect.command, tokens]
      exact Dialect.bindings_inlined _
    · rw [Dialect.command, tokens]
      exact Dialect.inlined_pieces _ writable 1
  · intro bound fault ok failed
    obtain ⟨none, -⟩ := compile_ok ok
    rcases (mem_faults_inlined hd).1 (compile_error failed) with mem | ⟨l, contained, unwritable⟩
    · rw [none] at mem
      cases mem
    · exact ⟨l, contained, Dialect.literalText_eq_error_iff.2 unwritable⟩

/-- A constant behind a minus sign, one behind a parameter, and a limit in front of both. -/
def scaledOrders (factor : Value) : Select :=
  let price : Expr := .parameter ⟨"price", .int 7, .int⟩
  { projections := [⟨.unary .negate (.literal ⟨.int (-5), .int⟩) .int, "refund"⟩,
      ⟨.binary price .multiply (.literal ⟨factor, .float⟩) .float, "scaled"⟩]
    sources := [.table "orders" none none]
    limit := some (.literal ⟨.int 10, .int⟩) }

theorem compile_inlined_scaledOrders :
    (∃ plain bound, (scaledOrders (.int 2)).compile (.sqlServer "dbo") ⟨false⟩ = .ok plain ∧
      (scaledOrders (.int 2)).compile (.sqlServer "dbo") ⟨true⟩ = .ok bound ∧
      bound.parameters.length = 4 ∧ plain.parameters = [⟨some "price", .int 7, .int⟩]) ∧
    ∃ l, (Node.block (scaledOrders (.float (.nan false)))).Contains (.expr (.literal l)) ∧
      (Dialect.sqlServer "dbo").literalText l = .error (.notFinite (.nan false)) := by
  constructor
  · obtain ⟨bound, ok, named, -⟩ :=
      (Select.compile_inlined (.sqlServer "dbo") (scaledOrders (.int 2))).1 _ rfl
    refine ⟨_, bound, rfl, ok, ?_, ?_⟩
    · cases ok
      rfl
    · rw [named]
      cases ok
      rfl
  · exact (Select.compile_inlined (.sqlServer "dbo") _).2 _ _ rfl rfl

end SelectCompiler
