import SelectCompiler.Proofs.CalendarTexts
import SelectCompiler.Proofs.Wire.Shortening

/-!
Values that are found again in their JSON form, whatever has been left out of it: the fields of a
record and the items of an array from their readers, types and operators from their names.
-/

namespace SelectCompiler

namespace Json

/-- A form that is not null, and a reader that finds a value in whatever shortens it. -/
structure ReadsBack {α : Type} (read : Nat → Json → Option α) (j : Json) (a : α) : Prop where
  given : j ≠ .null
  found : ∀ n j', j.Shortens j' → j'.depth ≤ n → read n j' = some a

variable {α : Type} {read : Nat → Json → Option α} {j : Json} {a : α} {n : Nat}

/-- Nothing can be left out of a value. -/
def IsRigid (j : Json) : Prop := ∀ j', j.Shortens j' → j' = j

theorem IsRigid.of_isScalar (h : j.isScalar = true) : j.IsRigid :=
  fun _ short => short.eq_of_isScalar h

theorem IsRigid.variant {tag : String} (given : j ≠ .null) (h : j.IsRigid) :
    (Json.variant tag j).IsRigid := by
  intro j' short
  obtain ⟨_, payload, -, rfl, short, -⟩ := short.variant given (Nat.le_refl _)
  rw [h payload short]

theorem IsRigid.arr {items : List Json} (h : ∀ j ∈ items, j.IsRigid) : (Json.arr items).IsRigid := by
  intro j short
  cases short with
  | scalar h => cases h
  | @arr _ items' short =>
    suffices same : items' = items by rw [same]
    induction short with
    | nil => rfl
    | cons head rest ih =>
      rw [List.forall_mem_cons] at h
      rw [h.1 _ head, ih h.2]

theorem ReadsBack.of_isRigid {read : Json → Option α} (given : j ≠ .null) (rigid : j.IsRigid)
    (h : read j = some a) : ReadsBack (fun _ => read) j a :=
  ⟨given, fun _ j' short _ => by rw [rigid j' short, h]⟩

/-- A variant is found where its data are. -/
theorem ReadsBack.variant {β : Type} {readVariant : Nat → Json → Option β} {tag : String}
    {f : α → β} (h : ReadsBack read j a)
    (eq : ∀ n j, readVariant (n + 1) (.variant tag j) = (read n j).map f) :
    ReadsBack readVariant (.variant tag j) (f a) := by
  refine ⟨nofun, fun n j' short deep => ?_⟩
  obtain ⟨k, j', rfl, rfl, short, deep⟩ := short.variant h.given deep
  rw [eq, h.found k j' short deep, Option.map_some]

theorem ReadsBack.str (s : String) : ReadsBack (fun _ => Json.str?) (.str s) s :=
  .of_isRigid nofun (.of_isScalar rfl) rfl

theorem ReadsBack.bool (b : Bool) : ReadsBack (fun _ => Json.bool?) (.bool b) b :=
  .of_isRigid nofun (.of_isScalar rfl) rfl

theorem depth_le_of_mem_items {items : List Json} (h : j ∈ items) : j.depth ≤ depthItems items := by
  induction items with
  | nil => cases h
  | cons head rest ih =>
    rw [depthItems]
    rcases List.mem_cons.1 h with rfl | h
    · exact Nat.le_max_left ..
    · exact Nat.le_trans (ih h) (Nat.le_max_right ..)

theorem mapM_of_forall₂ {β : Type} {f : α → Option β} {as : List α} {bs : List β}
    (h : List.Forall₂ (fun a b => f a = some b) as bs) : as.mapM f = some bs := by
  induction h with
  | nil => rfl
  | cons head rest ih => simp [List.mapM_cons, head, ih]

/-- The items of an array are found where each of them is. -/
theorem ReadsBack.list {toJson : α → Json} {as : List α}
    (h : ∀ a ∈ as, ReadsBack read (toJson a) a) :
    ReadsBack (fun n => Json.list? (read n)) (.arr (as.map toJson)) as := by
  refine ⟨nofun, fun n j' short deep => ?_⟩
  cases short with
  | scalar h => cases h
  | @arr _ items short =>
    have below : ∀ j ∈ items, j.depth ≤ n := fun j hj => by
      have := depth_le_of_mem_items hj
      rw [depth] at deep
      omega
    refine mapM_of_forall₂ ?_
    rw [List.forall₂_map_left_iff] at short
    clear deep
    induction short with
    | nil => exact .nil
    | cons head rest ih =>
      rw [List.forall_mem_cons] at h below
      exact .cons ((h.1).found n _ head below.1) (ih h.2 below.2)

/-! ### Fields -/

namespace Field

variable {block : Bool} {name : String} {f : Option Json}

/-- A form that is not null is not left out of a record that is no query block. -/
theorem kept (h : Field false n (name, j) f) (given : j ≠ .null) :
    ∃ j', f = some j' ∧ j.Shortens j' ∧ j'.depth ≤ n := by
  cases h with
  | present short below => exact ⟨_, rfl, short, below⟩
  | missing h =>
    rcases h with null | ⟨block, -⟩
    · exact absurd null given
    · cases block

theorem required (h : Field false n (name, j) f) (back : ReadsBack read j a) :
    required (read n) f = some a := by
  obtain ⟨j', rfl, short, below⟩ := h.kept back.given
  exact back.found n j' short below

/-- The form of an optional part that is missing is null. -/
theorem optional {toJson : α → Json} {o : Option α}
    (h : Field block n (name, (o.map toJson).getD .null) f)
    (back : ∀ a ∈ o, ReadsBack read (toJson a) a)
    (default : ∀ j, (name, j) ∈ Select.defaultMembers → j = .null) :
    optional (read n) f = some o := by
  cases o with
  | none =>
    cases h with
    | present short below =>
      cases short with
      | scalar h => rfl
    | missing h => rfl
  | some a =>
    have back := back a rfl
    cases h with
    | @present j short below =>
      have given : j ≠ .null := short.ne_null back.given
      have read := back.found n _ short below
      cases j with
      | null => exact absurd rfl given
      | _ => simp [Json.optional, read]
    | missing h =>
      rcases h with null | ⟨-, member⟩
      · exact absurd null back.given
      · exact absurd (default _ member) back.given

theorem optionalText {o : Option String} (h : Field false n (name, optionalText o) f)
    (default : ∀ j, (name, j) ∈ Select.defaultMembers → j = .null) :
    Json.optional Json.str? f = some o := by
  have form : SelectCompiler.optionalText o = (o.map Json.str).getD .null := by cases o <;> rfl
  rw [form] at h
  exact h.optional (fun s _ => .str s) default

/-- A field of a query block is left out where it is its default. -/
theorem defaulted (default : α) (h : Field block n (name, j) f) (back : ReadsBack read j a)
    (same : (name, j) ∈ Select.defaultMembers → a = default) :
    defaulted (read n) default f = some a := by
  cases h with
  | present short below => exact back.found n _ short below
  | missing h =>
    rcases h with null | ⟨-, member⟩
    · exact absurd null back.given
    · rw [same member]
      rfl

end Field

end Json

open Json (IsRigid ReadsBack)

/-! ### Names -/

theorem named?_of_mem {α : Type} {nameOf : α → String} {alternatives : List α} {a : α}
    (distinct : (alternatives.map nameOf).Nodup) (h : a ∈ alternatives) :
    named? nameOf alternatives (nameOf a) = some a := by
  rw [named?, List.find?_eq_some_iff_append]
  obtain ⟨before, after, rfl⟩ := List.append_of_mem h
  refine ⟨beq_self_eq_true _, before, after, rfl, fun b hb => ?_⟩
  rw [List.map_append, List.nodup_append] at distinct
  simpa using distinct.2.2 _ (List.mem_map_of_mem hb) _ (List.mem_map_of_mem List.mem_cons_self)

theorem BinaryOp.readsBack (op : BinaryOp) :
    ReadsBack (fun _ => BinaryOp.ofJson?) op.toJson op :=
  .of_isRigid nofun (.of_isScalar rfl)
    (named?_of_mem (by decide) (by cases op <;> decide))

theorem SetOperator.readsBack (operator : SetOperator) :
    ReadsBack (fun _ => SetOperator.ofJson?) operator.toJson operator :=
  .of_isRigid nofun (.of_isScalar rfl) (by cases operator <;> rfl)

theorem JoinKind.readsBack (kind : JoinKind) :
    ReadsBack (fun _ => JoinKind.ofJson?) kind.toJson kind :=
  .of_isRigid nofun (.of_isScalar rfl) (by cases kind <;> rfl)

theorem SqlType.readsBack (type : SqlType) :
    ReadsBack (fun _ => SqlType.ofJson?) type.toJson type := by
  cases type with
  | custom name => exact .of_isRigid nofun (.variant nofun (.of_isScalar rfl)) rfl
  | _ => exact .of_isRigid nofun (.of_isScalar rfl) rfl

theorem UnaryOp.readsBack (op : UnaryOp) : ReadsBack (fun _ => UnaryOp.ofJson?) op.toJson op := by
  cases op with
  | cast target =>
    cases target with
    | custom name =>
      exact .of_isRigid nofun (.variant nofun (.variant nofun (.of_isScalar rfl))) rfl
    | _ => exact .of_isRigid nofun (.variant nofun (.of_isScalar rfl)) rfl
  | _ => exact .of_isRigid nofun (.of_isScalar rfl) rfl

/-! ### Values -/

namespace Value

/-- The value has a JSON form of its own: it is not a float that stands for no number. -/
def IsFinite (v : Value) : Prop := ∀ x, v = float x → x.isFinite = true

theorem byte?_toNat (b : UInt8) : byte? b.toNat = some b := by
  have := b.toNat_lt
  rw [byte?, if_pos (by omega)]
  simp

theorem isRigid_toJson (v : Value) (finite : v.IsFinite) : v.toJson.IsRigid := by
  cases v with
  | null => exact .of_isScalar rfl
  | float x =>
    rw [toJson, finite x rfl]
    exact .variant nofun (.of_isScalar rfl)
  | bytes bs =>
    refine .variant nofun (.arr ?_)
    rw [List.forall_mem_map]
    exact fun b _ => .of_isScalar rfl
  | _ => exact .variant nofun (.of_isScalar rfl)

theorem ofJson?_toJson (v : Value) (finite : v.IsFinite) : ofJson? v.toJson = some v := by
  cases v with
  | null | bool b | text s => rfl
  | int n => simp [toJson, ofJson?, Json.tagged?, Json.int?, int64?_toInt]
  | float x => simp [toJson, ofJson?, Json.tagged?, Json.float?, finite x rfl]
  | date d => simp [toJson, ofJson?, Json.tagged?, Json.str?, d.ofText?_text]
  | dateTime dt => simp [toJson, ofJson?, Json.tagged?, Json.str?, dt.ofText?_text]
  | bytes bs =>
    have each : (bs.map fun b => Json.int b.toNat).mapM (fun j => j.int?.bind byte?) = some bs := by
      refine Json.mapM_of_forall₂ ?_
      rw [List.forall₂_map_left_iff, List.forall₂_same]
      intro b hb
      rw [Json.int?, Option.bind_some, byte?_toNat]
    simp [toJson, ofJson?, Json.tagged?, Json.list?, each]

theorem readsBack (v : Value) (finite : v.IsFinite) :
    ReadsBack (fun _ => Value.ofJson?) v.toJson v := by
  have given : v.toJson ≠ .null := by cases v <;> simp [toJson]
  exact .of_isRigid given (v.isRigid_toJson finite) (v.ofJson?_toJson finite)

end Value

end SelectCompiler
