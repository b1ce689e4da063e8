import Mathlib.Data.List.Forall2
import PhpScript.Json.Value

/-!
# The same JSON value

Two JSON values are the same when they hold the same: the members of an object are
compared by name, and in which order they stand does not matter. Only an object with two
members of one name holds more than this tells.
-/

namespace PhpScript.Json

/-- Both values hold the same. -/
inductive Same : Json → Json → Prop
  | null : Same null null
  | bool (value : Bool) : Same (bool value) (bool value)
  | integer (value : Int) : Same (integer value) (integer value)
  | real (value : Double) : Same (real value) (real value)
  | string (value : String) : Same (string value) (string value)
  | array {xs ys : List Json} : List.Forall₂ Same xs ys → Same (array xs) (array ys)
  | object {xs ys : List (String × Json)} :
      (∀ name, Option.Rel Same (find? name xs) (find? name ys)) → Same (object xs) (object ys)

/-- No object of the value, at any depth, has two members of one name. -/
inductive IsUnambiguous : Json → Prop
  | null : IsUnambiguous null
  | bool (value : Bool) : IsUnambiguous (bool value)
  | integer (value : Int) : IsUnambiguous (integer value)
  | real (value : Double) : IsUnambiguous (real value)
  | string (value : String) : IsUnambiguous (string value)
  | array {items : List Json} :
      (∀ item ∈ items, IsUnambiguous item) → IsUnambiguous (array items)
  | object {members : List (String × Json)} :
      (members.map Prod.fst).Nodup → (∀ member ∈ members, IsUnambiguous member.2) →
      IsUnambiguous (object members)

theorem isUnambiguous_array {items : List Json} :
    (array items).IsUnambiguous ↔ ∀ item ∈ items, item.IsUnambiguous :=
  ⟨fun | .array h => h, .array⟩

theorem sizeOf_lt_of_find? {name : String} {members : List (String × Json)} {value : Json}
    (h : find? name members = some value) : sizeOf value < sizeOf members := by
  induction members with
  | nil => cases h
  | cons member members ih =>
    obtain ⟨key, old⟩ := member
    simp only [find?] at h
    simp only [List.cons.sizeOf_spec, Prod.mk.sizeOf_spec]
    split at h
    · cases h
      omega
    · have hlt := ih h
      omega

namespace Same

theorem refl (json : Json) : Same json json := by
  cases json with
  | null => exact .null
  | bool value => exact .bool value
  | integer value => exact .integer value
  | real value => exact .real value
  | string value => exact .string value
  | array items => exact .array (List.forall₂_same.2 fun item _ => refl item)
  | object members =>
    refine .object fun name => ?_
    cases hfind : find? name members with
    | none => exact .none
    | some value =>
      have hlt := sizeOf_lt_of_find? hfind
      exact .some (refl value)
termination_by sizeOf json
decreasing_by
  · next hmem =>
    have hlt := List.sizeOf_lt_of_mem hmem
    simp only [array.sizeOf_spec]
    omega
  · simp only [object.sizeOf_spec]
    omega

end Same

end PhpScript.Json
