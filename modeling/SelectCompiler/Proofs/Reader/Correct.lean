import SelectCompiler.Proofs.Reader.Sheltered

/-!
Reading what has been written. Main statement: the reader gets from the text of a tree to the
reading of the tree.
-/

namespace SelectCompiler

variable {d : Dialect} {o : Options}

/-! ### Trees -/

/-- The expressions that the reader knows: without raw text, `ESCAPE` and negated `EXISTS`. Blocks
may be any. What stands to the right of an operator may be restricted further. -/
inductive Expr.IsReadable (ok : BinaryOp → Expr → Prop) : Expr → Prop where
  | column (c : Column) : IsReadable ok (.column c)
  | literal (l : Literal) : IsReadable ok (.literal l)
  | parameter (p : Parameter) : IsReadable ok (.parameter p)
  | unary (op : UnaryOp) {operand : Expr} (type : SqlType) (h : IsReadable ok operand) :
    IsReadable ok (.unary op operand type)
  | binary {left : Expr} {op : BinaryOp} {right : Expr} (type : SqlType)
    (hl : IsReadable ok left) (hr : IsReadable ok right) (h : ok op right) :
    IsReadable ok (.binary left op right type)
  | function {call : FunctionCall} (h : ∀ e ∈ call.arguments, IsReadable ok e) :
    IsReadable ok (.function call)
  | subquery (q : Select) : IsReadable ok (.subquery q)
  | exist (q : Select) : IsReadable ok (.exists q false)
  | inList {item : Expr} {values : List Expr} (negated : Bool) (hi : IsReadable ok item)
    (hv : ∀ e ∈ values, IsReadable ok e) : IsReadable ok (.inList item values negated)
  | inSelect {item : Expr} (q : Select) (negated : Bool) (hi : IsReadable ok item) :
    IsReadable ok (.inSelect item q negated)
  | like {item pattern : Expr} (negated : Bool) (hi : IsReadable ok item)
    (hp : IsReadable ok pattern) : IsReadable ok (.like item pattern none negated)
  | case {operand : Option Expr} {whens : List (Expr × Expr)} {otherwise : Option Expr}
    (type : SqlType) (ho : ∀ e ∈ operand, IsReadable ok e)
    (hc : ∀ w ∈ whens, IsReadable ok w.1) (hr : ∀ w ∈ whens, IsReadable ok w.2)
    (he : ∀ e ∈ otherwise, IsReadable ok e) :
    IsReadable ok (.case operand whens otherwise type)

namespace Expr.IsReadable

variable {ok : BinaryOp → Expr → Prop} {e : Expr}

theorem part (h : e.IsReadable ok) {m : Expr} (hm : .expr m ∈ (Node.expr e).parts) :
    m.IsReadable ok := by
  cases h with
  | unary op type h =>
    obtain rfl : m = _ := by simpa [Node.parts] using hm
    exact h
  | binary type hl hr h =>
    obtain rfl | rfl : m = _ ∨ m = _ := by simpa [Node.parts] using hm
    · exact hl
    · exact hr
  | function h => exact h m (by simpa [Node.parts] using hm)
  | inList negated hi hv =>
    obtain rfl | mem : m = _ ∨ m ∈ _ := by simpa [Node.parts] using hm
    · exact hi
    · exact hv m mem
  | inSelect q negated hi =>
    obtain rfl : m = _ := by simpa [Node.parts] using hm
    exact hi
  | like negated hi hp =>
    obtain rfl | rfl : m = _ ∨ m = _ := by simpa [Node.parts] using hm
    · exact hi
    · exact hp
  | case type ho hc hr he =>
    rw [Node.mem_case_parts] at hm
    obtain mem | ⟨w, hw, rfl | rfl⟩ | mem := hm
    · exact ho m mem
    · exact hc w hw
    · exact hr w hw
    · exact he m mem
  | _ => simp [Node.parts] at hm

theorem within (h : e.IsReadable ok) {k : Expr} (hk : k.Within e) : k.IsReadable ok := by
  induction hk with
  | self => exact h
  | part hm _ ih => exact ih (h.part hm)

theorem isNotExists (h : e.IsReadable ok) : e.isNotExists = false := by
  cases h <;> rfl

theorem isSheltered (h : e.IsReadable ok) (spells : ∀ op right, ok op right → d.Spells op) :
    e.IsSheltered false false d where
  shows left op right type eq := by
    subst eq
    cases h with
    | binary _ _ _ allowed => exact spells op right allowed
  escaped escaped := by
    cases h with
    | like => cases escaped
    | _ => cases escaped
  not := by
    cases h with
    | unary op type h => cases op <;> first | exact h.isNotExists | rfl
    | binary type hl hr allowed => simp [exposesNot, hl.isNotExists, hr.isNotExists]
    | inList negated hi hv => exact hi.isNotExists
    | inSelect q negated hi => exact hi.isNotExists
    | like negated hi hp => simp [exposesNot, hi.isNotExists, hp.isNotExists]
    | _ => rfl
  escape := by cases h <;> rfl

theorem plain_eq (h : e.IsReadable ok) : e.plain = e := by
  have option {e? : Option Expr} (ih : ∀ e ∈ e?, e.plain = e) : e?.map plain = e? := by
    cases e? with
    | none => rfl
    | some e => rw [Option.map_some, ih e rfl]
  have each {es : List Expr} (ih : ∀ e ∈ es, e.plain = e) : es.map plain = es :=
    (List.map_congr_left ih).trans es.map_id
  induction h with
  | column c => rfl
  | literal l => rfl
  | parameter p => rfl
  | unary op type h ih => rw [plain, ih]
  | binary type hl hr allowed ihl ihr => rw [plain, ihl, ihr]
  | @function call h ih =>
    rw [function_plain, each ih]
    cases call
    rfl
  | subquery q => rfl
  | exist q => rfl
  | inList negated hi hv ihi ihv => rw [plain, ihi, plainEach_eq, each ihv]
  | inSelect q negated hi ihi => rw [plain, ihi]
  | like negated hi hp ihi ihp => rw [plain, ihi, ihp]
  | @case operand whens otherwise type ho hc hr he iho ihc ihr ihe =>
    have arms : (whens.map fun w => (w.1.plain, w.2.plain)) = whens :=
      (List.map_congr_left fun w hw => Prod.ext (ihc w hw) (ihr w hw)).trans whens.map_id
    rw [plain, plainOption_eq, plainWhens_eq, plainOption_eq, option iho, option ihe, arms]

theorem isRead (h : e.IsReadable ok) (hd : d.BuiltIn)
    (spells : ∀ op right, ok op right → d.Spells op) (faultless : e.faults d o = [])
    (ordinary : ∀ l ∈ e.leaves d.pagingOrder, l.IsOrdinary) :
    e.IsRead false false d o (e.tokens d o) := by
  have legible : (Node.expr e).IsLegible d o :=
    ⟨faultless, fun l hl => ordinary l (((perm_step hd).ofExpr e).mem_iff.2 hl)⟩
  have read := Expr.isRead_plain hd (fun k hk => (h.within hk).isSheltered spells) legible
  rwa [h.plain_eq] at read

theorem read (h : e.IsReadable ok) (hd : d.BuiltIn)
    (spells : ∀ op right, ok op right → d.Spells op) (faultless : e.faults d o = [])
    (ordinary : ∀ l ∈ e.leaves d.pagingOrder, l.IsOrdinary) (n : Nat) :
    d.read (String.join (d.texts n (e.tokens d o))) = some (e.readingBy .attach d o n) := by
  have tokens := ordinary_tokens ((contents_step hd o).ofExpr e faultless) ordinary
  have lexed := Dialect.lex_phrase hd ((phrase_step hd o).ofExpr e) tokens n
  rw [Dialect.read, lexed, Option.bind_some]
  exact (h.isRead hd spells faultless ordinary).run n

end Expr.IsReadable

/-- With `NOT` and `ESCAPE` as operators of their own, the reader knows all expressions but raw
texts. -/
theorem Expr.isReadable_plain {ok : BinaryOp → Expr → Prop} (hd : d.BuiltIn) {e : Expr}
    (legible : (Node.expr e).IsLegible d o)
    (allowed : ∀ left op right type, (Expr.binary left op right type).Within e →
      ok op right.plain) : e.plain.IsReadable ok := by
  induction e using part_induction with
  | step e ih =>
  have part (m : Expr) (hm : .expr m ∈ (Node.expr e).parts) : m.plain.IsReadable ok :=
    ih m hm (legible.part hd hm) fun left op right type h => allowed left op right type (.part hm h)
  cases e with
  | column c => exact .column c
  | literal l => exact .literal l
  | parameter p => exact .parameter p
  | unary op operand type => exact .unary op type (part operand (by simp [Node.parts]))
  | binary left op right type =>
    exact .binary type (part left (by simp [Node.parts])) (part right (by simp [Node.parts]))
      (allowed left op right type (.self _))
  | function call =>
    rw [function_plain]
    refine .function fun m hm => ?_
    obtain ⟨k, hk, rfl⟩ := List.mem_map.1 hm
    exact part k (by simpa [Node.parts] using hk)
  | subquery q => exact .subquery q
  | «exists» q negated =>
    cases negated with
    | false => exact .exist q
    | true => exact .unary .not .boolean (.exist q)
  | inList item values negated =>
    rw [plain, plainEach_eq]
    refine .inList negated (part item (by simp [Node.parts])) fun m hm => ?_
    obtain ⟨k, hk, rfl⟩ := List.mem_map.1 hm
    exact part k (by simp [Node.parts, hk])
  | inSelect item q negated => exact .inSelect q negated (part item (by simp [Node.parts]))
  | like item pattern escape negated =>
    have item' := part item (by simp [Node.parts])
    have pattern' := part pattern (by simp [Node.parts])
    cases escape with
    | none => exact .like negated item' pattern'
    | some escape =>
      refine .like false (.function fun m hm => ?_) (part escape (by simp [Node.parts]))
      rw [List.mem_singleton.1 hm]
      exact .like negated item' pattern'
  | case operand whens otherwise type =>
    have mem (m : Expr) : .expr m ∈ (Node.expr (.case operand whens otherwise type)).parts ↔ _ :=
      Node.mem_case_parts
    have option {e? : Option Expr} (within : ∀ m ∈ e?, m ∈ operand ∨ m ∈ otherwise) :
        ∀ m ∈ e?.map plain, m.IsReadable ok := by
      intro m hm
      obtain ⟨k, hk, rfl⟩ := Option.map_eq_some_iff.1 (Option.mem_def.1 hm)
      exact part k ((mem k).2 ((within k hk).imp_right .inr))
    have arm (w : Expr × Expr) (hw : w ∈ whens) :
        w.1.plain.IsReadable ok ∧ w.2.plain.IsReadable ok :=
      ⟨part w.1 ((mem w.1).2 (.inr (.inl ⟨w, hw, .inl rfl⟩))),
        part w.2 ((mem w.2).2 (.inr (.inl ⟨w, hw, .inr rfl⟩)))⟩
    rw [plain, plainOption_eq, plainWhens_eq, plainOption_eq]
    refine .case type (option fun m hm => .inl hm) ?_ ?_ (option fun m hm => .inr hm)
    · exact List.forall_mem_map.2 fun w hw => (arm w hw).1
    · exact List.forall_mem_map.2 fun w hw => (arm w hw).2
  | fragment text => exact (legible.own (.fragment text) List.mem_cons_self).elim

end SelectCompiler
