import Mathlib.Data.List.Forall2
import Mathlib.Data.List.Nodup
import SelectCompiler.Wire.Encode

/-!
Members that may be left out of the JSON form of a tree: those that are null, and those of a query
block that have their default. Main statement: a record finds in a shortened object every member that
it has to find.
-/

namespace SelectCompiler

/-- The members of a query block that has nothing. -/
def Select.defaultMembers : List (String × Json) :=
  [("distinct", .bool false), ("projections", .arr []), ("from", .arr []), ("joins", .arr []),
    ("predicate", .null), ("group_by", .arr []), ("having", .null), ("orderings", .arr []),
    ("limit", .null), ("offset", .null)]

theorem Select.toJson_default : ({} : Select).toJson = .obj Select.defaultMembers := rfl

namespace Json

/-- Whether an object has the members of a query block. -/
def isBlock (members : List (String × Json)) : Bool :=
  members.map (·.1) == Select.defaultMembers.map (·.1)

theorem isBlock_cons {name : String} {j : Json} {ms : List (String × Json)}
    (h : name ≠ "distinct") : isBlock ((name, j) :: ms) = false := by
  simp [isBlock, Select.defaultMembers, h]

/-- A member that may be left out: null stands for an option that has nothing. -/
def IsDispensable (block : Bool) (member : String × Json) : Prop :=
  member.2 = .null ∨ block = true ∧ member ∈ Select.defaultMembers

def isScalar : Json → Bool
  | arr _ | obj _ => false
  | _ => true

/-- Members one by one, some dispensable ones left out. -/
inductive Thins (R : Json → Json → Prop) :
    List (String × Json) → List (String × Json) → (block : Bool) → Prop where
  | nil {block : Bool} : Thins R [] [] block
  | keep {block : Bool} {name : String} {j j' : Json} {ms ms' : List (String × Json)} (h : R j j')
    (rest : Thins R ms ms' block) : Thins R ((name, j) :: ms) ((name, j') :: ms') block
  | drop {block : Bool} {m : String × Json} {ms ms' : List (String × Json)}
    (h : IsDispensable block m) (rest : Thins R ms ms' block) : Thins R (m :: ms) ms' block

/-- The same value with some dispensable members left out, at any depth. -/
inductive Shortens : Json → Json → Prop where
  | scalar {j : Json} (h : j.isScalar = true) : Shortens j j
  | arr {items items' : List Json} (h : List.Forall₂ Shortens items items') :
    Shortens (.arr items) (.arr items')
  | obj {ms ms' : List (String × Json)} (h : Thins Shortens ms ms' (isBlock ms)) :
    Shortens (.obj ms) (.obj ms')

mutual

theorem Shortens.refl : (j : Json) → j.Shortens j
  | .arr items => .arr (Shortens.refl_items items)
  | .obj ms => .obj (Thins.refl ms _)
  | .null | .bool _ | .int _ | .float _ | .str _ | .unreadable => .scalar rfl

theorem Shortens.refl_items : (items : List Json) → List.Forall₂ Shortens items items
  | [] => .nil
  | j :: js => .cons (Shortens.refl j) (Shortens.refl_items js)

theorem Thins.refl : (ms : List (String × Json)) → (block : Bool) → Thins Shortens ms ms block
  | [], _ => .nil
  | (_, j) :: ms, block => .keep (Shortens.refl j) (Thins.refl ms block)

end

namespace Shortens

theorem eq_of_isScalar {j j' : Json} (h : j.Shortens j') (scalar : j.isScalar = true) : j' = j := by
  cases h with
  | scalar h => rfl
  | arr h => cases scalar
  | obj h => cases scalar

theorem ne_null {j j' : Json} (h : j.Shortens j') (given : j ≠ .null) : j' ≠ .null := by
  cases h with
  | scalar h => exact given
  | arr h => nofun
  | obj h => nofun

end Shortens

/-! ### Members of a shortened object -/

namespace Thins

variable {R : Json → Json → Prop} {block : Bool} {ms ms' : List (String × Json)}

theorem names (h : Thins R ms ms' block) : (ms'.map (·.1)).Sublist (ms.map (·.1)) := by
  induction h with
  | nil => exact .slnil
  | keep h rest ih => exact ih.cons_cons _
  | drop h rest ih => exact ih.cons _

theorem not_isRepeated (h : Thins R ms ms' block) (distinct : (ms.map (·.1)).Nodup)
    (name : String) : isRepeated ms' name = false := by
  have once := List.nodup_iff_count_le_one.1 (distinct.sublist h.names) name
  rw [List.count_eq_countP, List.countP_map] at once
  simpa [isRepeated, Function.comp_def] using once

/-- A member is found shortened, or it was dispensable and is not found at all. -/
theorem member? (h : Thins R ms ms' block) (distinct : (ms.map (·.1)).Nodup)
    {m : String × Json} (hm : m ∈ ms) :
    (∃ j, Json.member? ms' m.1 = some j ∧ R m.2 j ∧ (m.1, j) ∈ ms') ∨
      Json.member? ms' m.1 = none ∧ IsDispensable block m := by
  induction h with
  | nil => cases hm
  | @keep block name j j' ms ms' h rest ih =>
    rw [List.map_cons, List.nodup_cons] at distinct
    rcases List.mem_cons.1 hm with rfl | hm
    · exact .inl ⟨j', by simp [Json.member?], h, List.mem_cons_self⟩
    · have other : (name == m.1) = false :=
        beq_false_of_ne fun eq => distinct.1 (List.mem_map.2 ⟨m, hm, eq.symm⟩)
      have skip : Json.member? ((name, j') :: ms') m.1 = Json.member? ms' m.1 := by
        simp [Json.member?, other]
      rw [skip]
      exact (ih distinct.2 hm).imp_left fun ⟨k, found, short, mem⟩ =>
        ⟨k, found, short, List.mem_cons_of_mem _ mem⟩
  | @drop block m' ms ms' h rest ih =>
    rw [List.map_cons, List.nodup_cons] at distinct
    rcases List.mem_cons.1 hm with rfl | hm
    · refine .inr ⟨?_, h⟩
      have absent : m.1 ∉ ms'.map (·.1) := fun mem => distinct.1 (rest.names.subset mem)
      rw [Json.member?, List.find?_eq_none.2, Option.map_none]
      intro k hk same
      exact absent (List.mem_map.2 ⟨k, hk, beq_iff_eq.1 same⟩)
    · exact ih distinct.2 hm

end Thins

theorem depth_le_of_mem {ms : List (String × Json)} {name : String} {j : Json}
    (h : (name, j) ∈ ms) : j.depth ≤ depthMembers ms := by
  induction ms with
  | nil => cases h
  | cons m ms ih =>
    obtain ⟨name', j'⟩ := m
    rw [depthMembers]
    rcases List.mem_cons.1 h with eq | h
    · cases eq
      exact Nat.le_max_left ..
    · exact Nat.le_trans (ih h) (Nat.le_max_right ..)

/-- What a record finds of a member in a shortened object. -/
inductive Field (block : Bool) (depth : Nat) (member : String × Json) : Option Json → Prop where
  | present {j : Json} (h : member.2.Shortens j) (below : j.depth ≤ depth) :
    Field block depth member (some j)
  | missing (h : IsDispensable block member) : Field block depth member none

theorem Field.mono {block : Bool} {k n : Nat} {member : String × Json} {f : Option Json}
    (h : Field block k member f) (le : k ≤ n) : Field block n member f := by
  cases h with
  | present short below => exact .present short (Nat.le_trans below le)
  | missing h => exact .missing h

namespace Shortens

variable {j : Json} {n : Nat}

/-- A record finds its fields in a shortened object. -/
theorem record {ms : List (String × Json)} (h : (Json.obj ms).Shortens j)
    (distinct : (ms.map (·.1)).Nodup) (deep : j.depth ≤ n) :
    ∃ k find, n = k + 1 ∧ (∀ m ∈ ms, Field (isBlock ms) k m (find m.1)) ∧
      j.record? (ms.map (·.1)) = some ((ms.map (·.1)).map find) ∧
      j.partialRecord? (ms.map (·.1)) = some ((ms.map (·.1)).map find) ∧
      ∀ listed, j.fields? listed (ms.map (·.1)) = some ((ms.map (·.1)).map find) := by
  cases h with
  | scalar h => cases h
  | @obj _ ms' h =>
    cases n with
    | zero => exact absurd deep (by rw [depth]; omega)
    | succ k =>
      have deep : depthMembers ms' ≤ k := by rw [depth] at deep; omega
      have once : (ms.map (·.1)).any (isRepeated ms') = false := by
        rw [List.any_eq_false]
        exact fun name _ => by simp [h.not_isRepeated distinct name]
      have members : (Json.obj ms').members? (ms.map (·.1)) =
          some ((ms.map (·.1)).map (member? ms')) := by
        rw [members?, once]
        rfl
      refine ⟨k, member? ms', rfl, fun m hm => ?_, members, members, fun listed => ?_⟩
      · rcases h.member? distinct hm with ⟨j, found, short, mem⟩ | ⟨found, dispensable⟩
        · rw [found]
          exact .present short (Nat.le_trans (depth_le_of_mem mem) deep)
        · rw [found]
          exact .missing dispensable
      · cases listed <;> exact members

/-- The fields of a record that is no query block. -/
theorem ordinaryRecord {name : String} {field : Json} {ms : List (String × Json)}
    (h : (Json.obj ((name, field) :: ms)).Shortens j) (ordinary : name ≠ "distinct")
    (distinct : (name :: ms.map (·.1)).Nodup) (deep : j.depth ≤ n) :
    ∃ k find, n = k + 1 ∧ (∀ m ∈ (name, field) :: ms, Field false k m (find m.1)) ∧
      j.record? (name :: ms.map (·.1)) = some (find name :: (ms.map (·.1)).map find) ∧
      ∀ listed, j.fields? listed (name :: ms.map (·.1)) =
        some (find name :: (ms.map (·.1)).map find) := by
  obtain ⟨k, find, eq, fields, record, -, listed⟩ := h.record distinct deep
  rw [isBlock_cons ordinary] at fields
  exact ⟨k, find, eq, fields, record, listed⟩

/-- The data of a variant are shortened, not left out. -/
theorem variant {tag : String} {payload : Json} (h : (Json.variant tag payload).Shortens j)
    (given : payload ≠ .null) (deep : j.depth ≤ n) :
    ∃ k payload', n = k + 1 ∧ j = Json.variant tag payload' ∧ payload.Shortens payload' ∧
      payload'.depth ≤ k := by
  cases h with
  | scalar h => cases h
  | obj h =>
    have ordinary : isBlock [(tag, payload)] = false := by simp [isBlock, Select.defaultMembers]
    cases h with
    | drop h rest =>
      rcases h with null | ⟨block, -⟩
      · exact absurd null given
      · rw [ordinary] at block
        cases block
    | @keep _ _ _ payload' _ _ short rest =>
      cases rest
      cases n with
      | zero => exact absurd deep (by rw [depth]; omega)
      | succ k =>
        refine ⟨k, payload', rfl, rfl, short, ?_⟩
        rw [depth, depthMembers] at deep
        omega

/-- The fields of a variant that has a record of its own. -/
theorem variantRecord {tag name : String} {field : Json} {ms : List (String × Json)}
    (h : (Json.variant tag (.obj ((name, field) :: ms))).Shortens j) (ordinary : name ≠ "distinct")
    (distinct : (name :: ms.map (·.1)).Nodup) (deep : j.depth ≤ n) :
    ∃ k payload find, n = k + 1 ∧ j = Json.variant tag payload ∧
      (∀ m ∈ (name, field) :: ms, Field false k m (find m.1)) ∧
      ∀ listed, payload.fields? listed (name :: ms.map (·.1)) =
        some (find name :: (ms.map (·.1)).map find) := by
  obtain ⟨k, payload, rfl, rfl, short, deep⟩ := h.variant nofun deep
  obtain ⟨k, find, rfl, fields, -, record⟩ := short.ordinaryRecord ordinary distinct deep
  exact ⟨k + 1, payload, find, rfl, rfl, fun m hm => (fields m hm).mono (Nat.le_succ k), record⟩

end Shortens

end Json

end SelectCompiler
