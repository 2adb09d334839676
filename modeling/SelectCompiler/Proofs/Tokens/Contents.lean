import SelectCompiler.Proofs.Dialects
import SelectCompiler.Proofs.Tree.Leaves

/-!
The contents of a text: its names, quoted constants, placeholders and raw texts. Main statement: the
contents that a tree without faults is written with are those of its leaves, in their order.
-/

namespace SelectCompiler

open Token (clause words enclosed enclosedIf listed qualified optionalClause listClause)

namespace Token

/-- Whether the token is there because of a leaf; numbers and words also come from the dialect. -/
def isContent : Token → Bool
  | .name _ | .verbatim _ | .placeholder _ | .constant (.quoted _ _ _) => true
  | _ => false

def contents (tokens : List Token) : List Token := tokens.filter isContent

@[simp] theorem contents_nil : contents [] = [] := rfl

@[simp] theorem contents_append (a b : List Token) : contents (a ++ b) = contents a ++ contents b :=
  List.filter_append a b

@[simp] theorem contents_space (ts : List Token) : contents (.space :: ts) = contents ts := rfl

@[simp] theorem contents_word (w : String) (ts : List Token) :
    contents (.word w :: ts) = contents ts := rfl

@[simp] theorem contents_symbol (s : String) (ts : List Token) :
    contents (.symbol s :: ts) = contents ts := rfl

@[simp] theorem contents_bare (text : String) (ts : List Token) :
    contents (.constant (.bare text) :: ts) = contents ts := rfl

@[simp] theorem contents_name (n : String) (ts : List Token) :
    contents (.name n :: ts) = .name n :: contents ts := rfl

@[simp] theorem contents_verbatim (text : String) (ts : List Token) :
    contents (.verbatim text :: ts) = .verbatim text :: contents ts := rfl

@[simp] theorem contents_placeholder (b : Binding) (ts : List Token) :
    contents (.placeholder b :: ts) = .placeholder b :: contents ts := rfl

@[simp] theorem contents_flatten (tss : List (List Token)) :
    contents tss.flatten = tss.flatMap contents := by
  rw [contents, List.filter_flatten, List.flatMap_def]
  rfl

@[simp] theorem contents_flatMap {α : Type} (xs : List α) (f : α → List Token) :
    contents (xs.flatMap f) = xs.flatMap fun x => contents (f x) := by
  rw [List.flatMap_def, contents_flatten, List.flatMap_map]

theorem contents_intercalate (sep : List Token) (h : contents sep = []) (items : List (List Token)) :
    contents (sep.intercalate items) = items.flatMap contents := by
  induction items with
  | nil => rfl
  | cons item items ih =>
    cases items with
    | nil => simp
    | cons next items =>
      rw [List.intercalate_cons_cons, contents_append, contents_append, h, ih]
      simp

@[simp] theorem contents_words (ws : List String) : contents (words ws) = [] := by
  rw [words, contents_intercalate _ rfl]
  simp

@[simp] theorem contents_clause (ws : List String) : contents (clause ws) = [] := by simp [clause]

@[simp] theorem contents_enclosed (ts : List Token) : contents (enclosed ts) = contents ts := by
  simp [enclosed]

@[simp] theorem contents_enclosedIf (needed : Bool) (ts : List Token) :
    contents (enclosedIf needed ts) = contents ts := by
  cases needed
  · rfl
  · exact contents_enclosed ts

@[simp] theorem contents_listed (items : List (List Token)) :
    contents (listed items) = items.flatMap contents :=
  contents_intercalate _ rfl items

@[simp] theorem contents_qualified (qualifier : Option String) (t : Token) :
    contents (qualified qualifier t) = qualifier.toList.map .name ++ contents [t] := by
  cases qualifier <;> rfl

@[simp] theorem contents_optionalClause (ws : List String) (content : Option (List Token)) :
    contents (optionalClause ws content) = content.toList.flatMap contents := by
  cases content <;> simp [optionalClause]

@[simp] theorem contents_listClause (ws : List String) (items : List (List Token)) :
    contents (listClause ws items) = items.flatMap contents := by
  cases items <;> simp [listClause]

end Token

open Token (contents)

namespace Dialect

variable {d : Dialect}

@[simp] theorem contents_binaryTokens (op : BinaryOp) (a b : Bool) (left right : List Token) :
    contents (d.binaryTokens op a b left right) = contents left ++ contents right := by
  unfold binaryTokens
  split
  · simp
  · cases op <;> simp [operatorToken]

@[simp] theorem contents_aliased (aliasName : String) (source : List Token) :
    contents (d.aliased aliasName source) = contents source ++ [Token.name aliasName] := by
  unfold aliased aliasLead
  split <;> simp

@[simp] theorem contents_operandTokens (paged : Bool) (operand : List Token) :
    contents (d.operandTokens paged operand) = contents operand := by
  unfold operandTokens operandLead
  split
  · split <;> simp
  · rfl

@[simp] theorem contents_distinctTokens (distinct : Bool) :
    contents (distinctTokens distinct) = [] := by
  cases distinct <;> rfl

@[simp] theorem contents_projectionTokens (projections : List (List Token)) :
    contents (projectionTokens projections) = projections.flatMap contents := by
  cases projections <;> simp [projectionTokens]

@[simp] theorem contents_sourceTokens (sources : List (List Token)) :
    contents (d.sourceTokens sources) = sources.flatMap contents := by
  cases sources <;> cases h : d.emptySource <;> simp [sourceTokens, h]

theorem contents_orderingTokens (hd : d.BuiltIn) (orderings : List (List Token))
    (hasOffset : Bool) :
    contents (d.orderingTokens orderings hasOffset) = orderings.flatMap contents := by
  cases orderings with
  | nil => cases hd <;> cases hasOffset <;> rfl
  | cons t ts => simp [orderingTokens]

theorem contents_frontTokens (hd : d.BuiltIn) (limit offset : Option (List Token)) :
    contents (d.frontTokens limit offset) =
      d.leadingParts (limit.map contents) (offset.map contents) := by
  cases hd <;> cases limit <;> cases offset <;>
    simp [frontTokens, pagingPlan, leadingTokens, leadingParts, postgres, mysql, sqlite,
      sqlServer, oracle]

theorem contents_backTokens (hd : d.BuiltIn) (limit offset : Option (List Token)) :
    contents (d.backTokens limit offset) =
      d.trailingParts (limit.map contents) (offset.map contents) := by
  cases hd <;> cases limit <;> cases offset <;>
    simp [backTokens, pagingPlan, trailingParts, PagingForm.inOrder, PagingForm.tokens,
      PagingForm.tokens.fetched, postgres, mysql, sqlite, sqlServer, oracle]

/-- A block that is written has all its parts; limit and offset stand where the dialect puts
them. -/
theorem contents_assemble (hd : d.BuiltIn) (c : Clauses) :
    contents (d.assemble c) =
      d.leadingParts (c.limit.map contents) (c.offset.map contents) ++
      c.projections.flatMap contents ++ c.sources.flatMap contents ++
      c.joins.flatMap contents ++ c.predicate.toList.flatMap contents ++
      c.groupBy.flatMap contents ++ c.having.toList.flatMap contents ++
      c.orderings.flatMap contents ++
      d.trailingParts (c.limit.map contents) (c.offset.map contents) := by
  simp only [assemble_eq, Token.contents_append, contents_distinctTokens,
    contents_frontTokens hd, contents_projectionTokens, contents_sourceTokens, Token.contents_flatten,
    Token.contents_optionalClause, Token.contents_listClause, contents_orderingTokens hd,
    contents_backTokens hd, Token.contents_word, Token.contents_space, Token.contents_nil,
    List.nil_append]

end Dialect

end SelectCompiler
