import Mathlib.Data.List.Flatten
import SelectCompiler.Proofs.Tokens.Characters
import SelectCompiler.Proofs.Tokens.LeafContents
import SelectCompiler.Proofs.Tokens.Positions
import SelectCompiler.Proofs.Tokens.TreePhrase
import SelectCompiler.Proofs.Tree.LeafOrder

/-!
Placeholders and bindings. Main statement: the text of a query splits at its placeholders, which are
numbered from left to right, and the values bound to them are those of the bound nodes of the tree
in the order of the text, each node once.
-/

namespace SelectCompiler

/-! ### Bound nodes -/

/-- What a leaf binds: a parameter always, a constant only where constants are bound. -/
def Leaf.binding? (o : Options) : Leaf → Option Binding
  | .parameter p => some ⟨some p.name, p.value, p.type⟩
  | .literal l => if o.bindLiterals then some ⟨none, l.value, l.type⟩ else none
  | _ => none

def Select.bound (order : PagingOrder) (o : Options) (s : Select) : List Binding :=
  (s.leaves order).filterMap (Leaf.binding? o)

theorem bindings_contents (ts : List Token) :
    Token.bindings (Token.contents ts) = Token.bindings ts := by
  rw [Token.bindings, Token.contents, List.filterMap_filter]
  congr 1
  funext t
  cases t with
  | constant c => cases c <;> rfl
  | _ => rfl

theorem bindings_leaf (d : Dialect) (o : Options) (l : Leaf) :
    Token.bindings (l.contents d o) = (l.binding? o).toList := by
  have owned (owner : Option String) (t : Token) (h : t.binding? = none) :
      Token.bindings (ownedName owner t) = [] := by
    rw [ownedName, Token.bindings, List.filterMap_append, ← Token.bindings, ← Token.bindings,
      bindings_contents]
    have single : Token.bindings [t] = [] := by rw [Token.bindings, List.filterMap_cons_none h]; rfl
    rw [single]
    cases owner <;> rfl
  cases l with
  | column c => exact owned _ _ rfl
  | literal l =>
    rw [Leaf.contents, bindings_contents]
    cases h : o.bindLiterals <;>
      simp [Token.bindings, Token.binding?, Leaf.binding?, Dialect.literalToken, h]
  | parameter p => rfl
  | target type => cases type <;> rfl
  | function schema name isBuiltIn => exact owned _ _ (by cases isBuiltIn <;> rfl)
  | table schema name => exact owned _ _ rfl
  | aliasName name => rfl
  | fragment text => rfl

/-- The bound values are those of the bound leaves, in the order of the text. -/
theorem Select.bindings_tokens {d : Dialect} (hd : d.BuiltIn) {o : Options} {s : Select}
    (h : s.faults d o = []) : Token.bindings (s.tokens d o) = s.bound d.pagingOrder o := by
  rw [← bindings_contents, (contents_step hd o).ofSelect s h, Token.bindings,
    List.filterMap_flatMap, Select.bound, List.filterMap_eq_flatMap_toList]
  exact List.flatMap_congr fun l _ => bindings_leaf d o l

/-! ### The text between placeholders -/

namespace Token

/-- The tokens before the first placeholder, and those after each placeholder. -/
def pieces : List Token → List Token × List (List Token)
  | [] => ([], [])
  | .placeholder _ :: ts => ([], (pieces ts).1 :: (pieces ts).2)
  | t :: ts => (t :: (pieces ts).1, (pieces ts).2)

theorem pieces_cons {t : Token} (h : t.binding? = none) (ts : List Token) :
    pieces (t :: ts) = (t :: (pieces ts).1, (pieces ts).2) := by
  cases t <;> first | rfl | cases h

theorem length_pieces (ts : List Token) : (pieces ts).2.length = (bindings ts).length := by
  induction ts with
  | nil => rfl
  | cons t ts ih =>
    cases h : t.binding? with
    | some b =>
      cases t <;> cases h
      exact congrArg (· + 1) ih
    | none =>
      rw [pieces_cons h, ih, bindings, bindings, List.filterMap_cons_none h]

theorem flatten_pieces (ts : List Token) :
    (pieces ts).1 ++ ((bindings ts).zip (pieces ts).2).flatMap (fun p => .placeholder p.1 :: p.2) =
      ts := by
  induction ts with
  | nil => rfl
  | cons t ts ih =>
    cases h : t.binding? with
    | some b =>
      cases t <;> cases h
      exact congrArg (.placeholder b :: ·) ih
    | none =>
      rw [pieces_cons h, bindings, List.filterMap_cons_none h, ← bindings, List.cons_append, ih]

theorem mem_pieces {ts piece : List Token} (hp : piece ∈ (pieces ts).1 :: (pieces ts).2) {t : Token}
    (ht : t ∈ piece) : t ∈ ts ∧ t.binding? = none := by
  induction ts generalizing piece with
  | nil =>
    obtain rfl := List.mem_singleton.1 hp
    cases ht
  | cons u ts ih =>
    cases h : u.binding? with
    | some b =>
      cases u <;> cases h
      rcases List.mem_cons.1 hp with rfl | hp
      · cases ht
      · exact (ih hp ht).imp_left (List.mem_cons_of_mem _)
    | none =>
      rw [pieces_cons h] at hp
      rcases List.mem_cons.1 hp with rfl | hp
      · rcases List.mem_cons.1 ht with rfl | ht
        · exact ⟨List.mem_cons_self, h⟩
        · exact (ih List.mem_cons_self ht).imp_left (List.mem_cons_of_mem _)
      · exact (ih (List.mem_cons_of_mem _ hp) ht).imp_left (List.mem_cons_of_mem _)

end Token

namespace Dialect

variable (d : Dialect)

def plainText (ts : List Token) : String := String.join (ts.map (d.tokenText 0))

/-- Texts with placeholders between them, the first one having the given position. -/
def numbered : (position : Nat) → String → List String → String
  | _, s, [] => s
  | position, s, t :: ts => s ++ d.placeholderText position ++ numbered (position + 1) t ts

variable {d}

@[simp] theorem plainText_nil : d.plainText [] = "" := String.join_nil

@[simp] theorem plainText_cons (t : Token) (ts : List Token) :
    d.plainText (t :: ts) = d.tokenText 0 t ++ d.plainText ts := String.join_cons

theorem tokenText_of_unbound {t : Token} (h : t.binding? = none) (position : Nat) :
    d.tokenText position t = d.tokenText 0 t := by
  cases t <;> first | rfl | cases h

theorem numbered_append (position : Nat) (s t : String) (ts : List String) :
    d.numbered position (s ++ t) ts = s ++ d.numbered position t ts := by
  cases ts <;> simp [numbered, String.append_assoc]

theorem texts_pieces (ts : List Token) (position : Nat) :
    String.join (d.texts position ts) =
      d.numbered position (d.plainText (Token.pieces ts).1)
        ((Token.pieces ts).2.map d.plainText) := by
  induction ts generalizing position with
  | nil => rfl
  | cons t ts ih =>
    cases h : t.binding? with
    | some b =>
      cases t <;> cases h
      rw [texts, String.join_cons, ih]
      simp [Token.pieces, Token.binding?, numbered, tokenText]
    | none =>
      rw [texts, String.join_cons, h, tokenText_of_unbound h, ih, Token.pieces_cons h]
      simp [numbered_append]

end Dialect

/-- The text splits at as many placeholders as values are bound, and says no placeholder elsewhere;
the values are those of the bound nodes in the order of the text, every node once. -/
theorem Select.compile_binds {d : Dialect} (hd : d.BuiltIn) {o : Options} {s : Select}
    {out : Command} (h : s.compile d o = .ok out) :
    out.parameters = s.bound d.pagingOrder o ∧
    (s.bound d.pagingOrder o).Perm (s.bound .ofFields o) ∧
    ∃ (first : List Token) (rest : List (List Token)),
      rest.length = out.parameters.length ∧
      s.tokens d o =
        first ++ (out.parameters.zip rest).flatMap (fun p => .placeholder p.1 :: p.2) ∧
      out.sql = d.numbered 1 (d.plainText first) (rest.map d.plainText) ∧
      ∀ piece ∈ first :: rest, ∀ t ∈ piece, t.binding? = none ∧
        ∀ position, ¬(d.placeholderText position).toList <:+: (d.ownText t).toList := by
  obtain ⟨none, rfl⟩ := compile_ok h
  have bindings := Select.bindings_tokens hd none
  have own := ((phrase_step hd o).ofSelect s).own_chars hd
  refine ⟨bindings, ((perm_step hd).ofSelect s).filterMap _, _, _,
    Token.length_pieces (s.tokens d o), (Token.flatten_pieces _).symm, Dialect.texts_pieces _ 1,
    fun piece hp t ht => ?_⟩
  obtain ⟨mem, unbound⟩ := Token.mem_pieces hp ht
  exact ⟨unbound, Dialect.placeholder_not_infix hd (own t mem)⟩

/-- A limit that comes first in the text, before the nodes of the list it follows in the tree. -/
def limitedOrders : Select :=
  let id : Expr := .column ⟨"id", none, .int, false⟩
  let bound (name : String) (n : Int64) : Expr := .parameter ⟨name, .int n, .int⟩
  { projections := [⟨id, ""⟩]
    sources := [.table "orders" none none]
    predicate := some (.inList id [bound "low" 1, .literal ⟨.int 2, .int⟩] false)
    limit := some (bound "count" 3) }

theorem compile_binds_limitedOrders : ∃ out,
    limitedOrders.compile (.sqlServer "dbo") ⟨true⟩ = .ok out ∧
    out.parameters = limitedOrders.bound (Dialect.sqlServer "dbo").pagingOrder ⟨true⟩ ∧
    out.parameters.length = 3 :=
  ⟨_, rfl, (Select.compile_binds (.sqlServer "dbo") rfl).1, rfl⟩

end SelectCompiler
