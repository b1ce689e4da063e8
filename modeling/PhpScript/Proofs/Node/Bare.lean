import PhpScript.Node.Basic

/-!
# Trees without places

`Node.bare` forgets where the nodes of a tree were read from, and nothing else:
two trees are equal up to their spans if they are equal bare.
-/

namespace PhpScript

/-- A function that goes through a list item by item maps it. -/
theorem eq_map_of_cons {f : List α → List β} {g : α → β} (nil : f [] = [])
    (cons : ∀ x xs, f (x :: xs) = g x :: f xs) (xs : List α) : f xs = xs.map g := by
  induction xs with
  | nil => rw [nil, List.map_nil]
  | cons x xs ih => rw [cons, ih, List.map_cons]

namespace Node

mutual

/-- The tree without the places of its nodes. -/
@[simp] def bare : Node → Node
  | expression expr _ => .expression expr.bare .unknown
  | returns value _ => .returns (bareOption value) .unknown
  | namespaceBlock label body _ => .namespaceBlock (bareOption label) (bareList body) .unknown
  | classDecl label resolved members _ =>
    .classDecl (bareOption label) (bareOption resolved) (bareList members) .unknown
  | property modifiers items _ => .property modifiers (bareList items) .unknown
  | propertyItem label initial _ => .propertyItem label.bare (bareOption initial) .unknown
  | method modifiers label params body _ =>
    .method modifiers label.bare (bareList params) (bareBody body) .unknown
  | methodCall target label args _ => .methodCall target.bare label.bare (bareList args) .unknown
  | functionCall callee args _ => .functionCall callee.bare (bareList args) .unknown
  | construct cls args _ => .construct cls.bare (bareList args) .unknown
  | index base key _ => .index base.bare (bareOption key) .unknown
  | member base label _ => .member base.bare label.bare .unknown
  | assign target value _ => .assign target.bare value.bare .unknown
  | addAssign target value _ => .addAssign target.bare value.bare .unknown
  | concat left right _ => .concat left.bare right.bare .unknown
  | arrowFunction params body _ => .arrowFunction (bareList params) body.bare .unknown
  | closure params uses body _ =>
    .closure (bareList params) (bareList uses) (bareList body) .unknown
  | array slots _ => .array (bareSlots slots) .unknown
  | arrayItem key value _ => .arrayItem (bareOption key) value.bare .unknown
  | argument value _ => .argument value.bare .unknown
  | parameter binding _ => .parameter binding.bare .unknown
  | var text _ => .var text .unknown
  | constant label _ => .constant label.bare .unknown
  | integer value _ => .integer value .unknown
  | float value _ => .float value .unknown
  | string value _ => .string value .unknown
  | identifier text _ => .identifier text .unknown
  | name parts fullyQualified _ => .name parts fullyQualified .unknown
  | other kind children _ => .other kind (bareList children) .unknown

/-- `Node.bare` for the nodes of a list. -/
def bareList : List Node → List Node
  | [] => []
  | n :: rest => n.bare :: bareList rest

/-- `Node.bare` for a node that may be missing. -/
def bareOption : Option Node → Option Node
  | none => none
  | some n => some n.bare

/-- `Node.bare` for the slots of an array. -/
def bareSlots : List (Option Node) → List (Option Node)
  | [] => []
  | slot :: rest => bareOption slot :: bareSlots rest

/-- `Node.bare` for a list of nodes that may be missing. -/
def bareBody : Option (List Node) → Option (List Node)
  | none => none
  | some nodes => some (bareList nodes)

end

@[simp] theorem bareList_eq_map (nodes : List Node) : bareList nodes = nodes.map bare :=
  eq_map_of_cons (by rw [bareList]) (fun _ _ => by rw [bareList]) nodes

@[simp] theorem bareOption_eq_map (n? : Option Node) : bareOption n? = n?.map bare := by
  cases n? <;> simp [bareOption]

@[simp] theorem bareSlots_eq_map (slots : List (Option Node)) :
    bareSlots slots = slots.map (Option.map bare) :=
  eq_map_of_cons (by rw [bareSlots])
    (fun slot slots => by rw [bareSlots, bareOption_eq_map]) slots

@[simp] theorem isAssignable_bare (n : Node) : n.bare.isAssignable = n.isAssignable := by
  cases n <;> simp [isAssignable]

/-- Leaving out the empty slots leaves the others as they are. -/
theorem map_bare_filterMap (slots : List (Option Node)) :
    (slots.filterMap id).map bare = (slots.map (Option.map bare)).filterMap id := by
  simp [List.map_filterMap, List.filterMap_map]

end Node

end PhpScript
