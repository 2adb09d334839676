import Mathlib.Data.List.Forall2
import SelectCompiler.Proofs.Tokens.Contents

/-!
Two texts side by side. They are compared token by token: up to the end, where every token may
stand for the other, or up to a first pair of tokens that tells the texts apart. Whatever is built
of compared parts in the same way compares as its parts do.
-/

namespace SelectCompiler

open Token (clause words enclosed enclosedIf listed qualified optionalClause listClause contents)

theorem Token.unbound_of_contents {ts : List Token} (h : contents ts = []) :
    ∀ t ∈ ts, t.binding? = none := by
  intro t ht
  have bare := List.filter_eq_nil_iff.1 h t ht
  cases t <;> first | rfl | exact absurd rfl bare

structure Comparison where
  alike : Token → Token → Prop
  apart : Token → Token → Prop
  unbound : ∀ t, t.binding? = none → alike t t

namespace Comparison

variable {c : Comparison} {P Q R : Prop} {a a' b b' ts : List Token}

inductive Diverge (c : Comparison) : List Token → List Token → Prop where
  | here {t t' : Token} (h : c.apart t t') (ts ts' : List Token) : Diverge c (t :: ts) (t' :: ts')
  | later {t t' : Token} {ts ts' : List Token} (h : c.alike t t') (rest : Diverge c ts ts') :
    Diverge c (t :: ts) (t' :: ts')

/-- Either two texts are alike and `P` holds, or they diverge. -/
def Compares (c : Comparison) (P : Prop) (ts ts' : List Token) : Prop :=
  P ∧ List.Forall₂ c.alike ts ts' ∨ c.Diverge ts ts'

theorem Diverge.append (h : c.Diverge a a') (b b' : List Token) :
    c.Diverge (a ++ b) (a' ++ b') := by
  induction h with
  | here h ts ts' => exact .here h _ _
  | later h rest ih => exact .later h ih

theorem Diverge.behind (h : List.Forall₂ c.alike a a') (rest : c.Diverge b b') :
    c.Diverge (a ++ b) (a' ++ b') := by
  induction h with
  | nil => exact rest
  | cons h hs ih => exact .later h ih

theorem Diverge.exists_apart (h : c.Diverge a a') : ∃ t t', c.apart t t' := by
  induction h with
  | here h ts ts' => exact ⟨_, _, h⟩
  | later h rest ih => exact ih

namespace Compares

theorem of_never_apart (h : c.Compares P a a') (never : ∀ t t', ¬c.apart t t') :
    P ∧ List.Forall₂ c.alike a a' :=
  h.resolve_right fun diverge =>
    let ⟨t, t', apart⟩ := diverge.exists_apart
    never t t' apart

theorem mono (h : c.Compares P a a') (f : P → Q) : c.Compares Q a a' :=
  h.imp_left (And.imp_left f)

theorem append (h : c.Compares P a a') (h' : c.Compares Q b b') :
    c.Compares (P ∧ Q) (a ++ b) (a' ++ b') := by
  rcases h with ⟨p, h⟩ | h
  · rcases h' with ⟨q, h'⟩ | h'
    · exact .inl ⟨⟨p, q⟩, List.rel_append h h'⟩
    · exact .inr (.behind h h')
  · exact .inr (h.append b b')

theorem single {t t' : Token} (h : c.alike t t') (p : P) : c.Compares P [t] [t'] :=
  .inl ⟨p, .cons h .nil⟩

theorem self (h : ∀ t ∈ ts, c.alike t t) (p : P) : c.Compares P ts ts :=
  .inl ⟨p, List.forall₂_same.2 h⟩

/-- A text of keywords and marks. -/
theorem fixed (h : contents ts = []) (p : P) : c.Compares P ts ts :=
  self (fun t ht => c.unbound t (Token.unbound_of_contents h t ht)) p

theorem behind (h : contents ts = []) (h' : c.Compares P a a') :
    c.Compares P (ts ++ a) (ts ++ a') :=
  ((fixed h trivial).append h').mono And.right

theorem before (h : contents ts = []) (h' : c.Compares P a a') :
    c.Compares P (a ++ ts) (a' ++ ts) :=
  (h'.append (fixed h trivial)).mono And.left

theorem cons {t : Token} (h : t.binding? = none) (h' : c.Compares P a a') :
    c.Compares P (t :: a) (t :: a') :=
  ((single (c.unbound t h) trivial).append h').mono And.right

theorem snoc {t : Token} (h : t.binding? = none) (h' : c.Compares P a a') :
    c.Compares P (a ++ [t]) (a' ++ [t]) :=
  (h'.append (single (c.unbound t h) trivial)).mono And.left

theorem enclosed (h : c.Compares P a a') : c.Compares P (enclosed a) (enclosed a') :=
  .snoc rfl (.cons rfl h)

theorem enclosedIf (needed : Bool) (h : c.Compares P a a') :
    c.Compares P (enclosedIf needed a) (enclosedIf needed a') := by
  cases needed
  · exact h
  · exact h.enclosed

theorem qualified (qualifier : Option String) {t : Token} (h : t.binding? = none) (p : P) :
    c.Compares P (qualified qualifier t) (qualified qualifier t) := by
  have last : c.Compares P [t] [t] := single (c.unbound t h) p
  cases qualifier with
  | none => exact last
  | some q => exact .cons rfl (.cons rfl last)

theorem binaryTokens (d : Dialect) (op : BinaryOp) (left right : Bool) (h : c.Compares P a a')
    (h' : c.Compares Q b b') :
    c.Compares (P ∧ Q) (d.binaryTokens op left right a b)
      (d.binaryTokens op left right a' b') := by
  unfold Dialect.binaryTokens
  split
  · have arguments := h.append ((h'.cons (t := .space) rfl).cons (t := .symbol ",") rfl)
    refine .cons rfl ?_
    simpa [listed, List.intercalate, List.intersperse] using arguments.enclosed
  · have operator : contents [.space, d.operatorToken op, .space] = [] := by
      cases op <;> rfl
    simpa using (h.enclosedIf left).append ((h'.enclosedIf right).behind operator)

theorem aliased (d : Dialect) (aliasName : String) (h : c.Compares P a a') :
    c.Compares P (d.aliased aliasName a) (d.aliased aliasName a') := by
  have lead : contents d.aliasLead = [] := by
    unfold Dialect.aliasLead
    split <;> simp
  exact (h.before lead).snoc rfl

theorem operandTokens (d : Dialect) (paged : Bool) (h : c.Compares P a a') :
    c.Compares P (d.operandTokens paged a) (d.operandTokens paged a') := by
  have lead : contents d.operandLead = [] := by
    unfold Dialect.operandLead
    split <;> rfl
  cases paged
  · exact h
  · exact .snoc rfl (h.behind lead)

end Compares

/-! ### Lists and options -/

/-- Items that compare one by one. -/
inductive ComparesEach (c : Comparison) : Prop → List (List Token) → List (List Token) → Prop where
  | nil {P : Prop} (p : P) : ComparesEach c P [] []
  | cons {P Q R : Prop} {a a' : List Token} {as as' : List (List Token)} (h : c.Compares P a a')
    (hs : ComparesEach c Q as as') (both : P → Q → R) : ComparesEach c R (a :: as) (a' :: as')

variable {as as' : List (List Token)}

/-- Whatever has the shape of `x` compares with `x`, and `fine` says what is told apart. -/
def Tells {α β γ : Type} (c : Comparison) (shape : α → β) (fine : α → γ)
    (tokens tokens' : α → List Token) (x : α) : Prop :=
  ∀ x', shape x = shape x' → c.Compares (fine x = fine x') (tokens x) (tokens' x')

theorem ComparesEach.map {α β γ : Type} {shape : α → β} {fine : α → γ}
    {tokens tokens' : α → List Token} {xs xs' : List α}
    (each : ∀ x ∈ xs, c.Tells shape fine tokens tokens' x) (h : xs.map shape = xs'.map shape) :
    c.ComparesEach (xs.map fine = xs'.map fine) (xs.map tokens) (xs'.map tokens') := by
  induction xs generalizing xs' with
  | nil =>
    obtain rfl := List.map_eq_nil_iff.1 h.symm
    exact .nil rfl
  | cons x xs ih =>
    cases xs' with
    | nil => cases h
    | cons x' xs' =>
      rw [List.map_cons, List.map_cons, List.cons.injEq] at h
      have rest := ih (fun y hy => each y (List.mem_cons_of_mem _ hy)) h.2
      refine .cons (each x List.mem_cons_self x' h.1) rest fun first others => ?_
      rw [List.map_cons, List.map_cons, first, others]

theorem ComparesEach.flatten (h : c.ComparesEach P as as') :
    c.Compares P as.flatten as'.flatten := by
  induction h with
  | nil p => exact .inl ⟨p, .nil⟩
  | cons h hs both ih => exact (h.append ih).mono fun ⟨p, q⟩ => both p q

theorem ComparesEach.listed (h : c.ComparesEach P as as') :
    c.Compares P (listed as) (listed as') := by
  induction h with
  | nil p => exact .inl ⟨p, .nil⟩
  | cons h hs both ih =>
    cases hs with
    | nil q => simpa [Token.listed] using h.mono fun p => both p q
    | cons h' hs' both' =>
      simp only [Token.listed, List.intercalate_cons_cons] at ih ⊢
      exact ((h.before rfl).append ih).mono fun ⟨p, q⟩ => both p q

theorem ComparesEach.isEmpty (h : c.ComparesEach P as as') : as.isEmpty = as'.isEmpty := by
  cases h <;> rfl

theorem ComparesEach.prop (h : c.ComparesEach P [] []) : P := by
  cases h with
  | nil p => exact p

theorem ComparesEach.listClause (ws : List String) (h : c.ComparesEach P as as') :
    c.Compares P (listClause ws as) (listClause ws as') := by
  unfold Token.listClause
  rw [h.isEmpty]
  split
  · rename_i none
    have none' := h.isEmpty.trans none
    rw [List.isEmpty_iff] at none none'
    subst none none'
    exact .inl ⟨h.prop, .nil⟩
  · exact h.listed.behind (by simp)

/-- Optional parts that are there both or neither, and compare if they are. -/
inductive ComparesOption (c : Comparison) (P : Prop) :
    Option (List Token) → Option (List Token) → Prop where
  | none (p : P) : ComparesOption c P none none
  | some {a a' : List Token} (h : c.Compares P a a') : ComparesOption c P (some a) (some a')

theorem ComparesOption.isSome {a? a?' : Option (List Token)} (h : c.ComparesOption P a? a?') :
    a?.isSome = a?'.isSome := by
  cases h <;> rfl

theorem ComparesOption.getD {a? a?' : Option (List Token)} (h : c.ComparesOption P a? a?') :
    c.Compares P (a?.getD []) (a?'.getD []) := by
  cases h with
  | none p => exact .inl ⟨p, .nil⟩
  | some h => exact h

theorem ComparesOption.map {α β γ : Type} {shape : α → β} {fine : α → γ}
    {tokens tokens' : α → List Token} {x? x?' : Option α}
    (each : ∀ x ∈ x?, c.Tells shape fine tokens tokens' x) (h : x?.map shape = x?'.map shape) :
    c.ComparesOption (x?.map fine = x?'.map fine) (x?.map tokens) (x?'.map tokens') := by
  cases x? with
  | none =>
    obtain rfl := Option.map_eq_none_iff.1 h.symm
    exact .none rfl
  | some x =>
    cases x?' with
    | none => cases h
    | some x' =>
      rw [Option.map_some, Option.map_some, Option.some.injEq] at h
      exact .some ((each x rfl x' h).mono fun eq => by rw [Option.map_some, eq, Option.map_some])

theorem ComparesOption.optionalClause {a? a?' : Option (List Token)} (ws : List String)
    (h : c.ComparesOption P a? a?') :
    c.Compares P (optionalClause ws a?) (optionalClause ws a?') := by
  cases h with
  | none p => exact .inl ⟨p, .nil⟩
  | some h => exact h.behind (by simp)

end Comparison

end SelectCompiler
