import PhpScript.Number.Double

/-!
# JSON values

A JSON value as the programs here exchange it. Whole numbers and floating-point
numbers are told apart, and the members of an object keep the order in which
they were inserted, at most one for each name.
-/

namespace PhpScript

/-- A JSON value. -/
inductive Json
  | null
  | bool (value : Bool)
  | integer (value : Int)
  | real (value : Double)
  | string (value : String)
  | array (items : List Json)
  | object (members : List (String × Json))
deriving Inhabited

namespace Json

/-! ## Members -/

/-- The member of an object with a name. -/
def find? (name : String) : List (String × Json) → Option Json
  | [] => none
  | (key, value) :: rest => if key == name then some value else find? name rest

/-- Sets the member with a name: the value of an old one is replaced in its place. -/
def insert (name : String) (value : Json) : List (String × Json) → List (String × Json)
  | [] => [(name, value)]
  | (key, old) :: rest =>
    if key == name then (key, value) :: rest else (key, old) :: insert name value rest

/-! ## Views -/

/-- Whether this is the null value. -/
def isNull : Json → Bool
  | null => true
  | _ => false

/-- The members of an object. -/
def members? : Json → Option (List (String × Json))
  | object members => some members
  | _ => none

/-- The items of an array. -/
def items? : Json → Option (List Json)
  | array items => some items
  | _ => none

/-- The text of a string. -/
def string? : Json → Option String
  | string value => some value
  | _ => none

/-- The value of a boolean. -/
def bool? : Json → Option Bool
  | bool value => some value
  | _ => none

/-- A whole number that a signed 64-bit word holds. -/
def int64? : Json → Option Int
  | integer value =>
    if -(twoTo 63 : Int) ≤ value ∧ value < twoTo 63 then some value else none
  | _ => none

/-- A number as a floating-point number. -/
def double? : Json → Option Double
  | integer value => some (.ofInt value)
  | real value => some value
  | _ => none

/-! ## Depth -/

mutual

/-- How deep arrays and objects are nested; a scalar has depth zero. -/
def depth : Json → Nat
  | array items => depthItems items + 1
  | object members => depthMembers members + 1
  | _ => 0

/-- The largest depth among the items of an array. -/
def depthItems : List Json → Nat
  | [] => 0
  | item :: rest => max item.depth (depthItems rest)

/-- The largest depth among the members of an object. -/
def depthMembers : List (String × Json) → Nat
  | [] => 0
  | (_, value) :: rest => max value.depth (depthMembers rest)

end

end Json

end PhpScript
