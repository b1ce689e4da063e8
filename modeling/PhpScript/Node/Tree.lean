import PhpScript.Json.Value
import PhpScript.Node.Basic

/-!
# Trees as JSON

The JSON form of a syntax tree: each node is an object with its kind under
`node`, then its parts in order, and last its span. An absent part and an empty
slot of an array are null.
-/

namespace PhpScript

/-- A span as an object. -/
def Span.toJson (s : Span) : Json :=
  .object [("start", .integer s.start), ("end", .integer s.stop)]

/-- Modifiers as their names, joined. -/
def Modifiers.toJson (m : Modifiers) : Json := .string (String.intercalate " | " m.names)

/-- A floating-point number; one that is not finite is null. -/
def Double.toJson (x : Double) : Json := if x.isFinite then .real x else .null

namespace Node

/-- The object of a node with the given kind, parts and span. -/
def treeObject (kind : String) (parts : List (String × Json)) (span : Span) : Json :=
  .object (("node", .string kind) :: parts ++ [("span", span.toJson)])

mutual

/-- The JSON form of a node. -/
def toJson : Node → Json
  | expression expr s => treeObject "Expression" [("expr", toJson expr)] s
  | returns value s => treeObject "Return" [("expr", toJsonOption value)] s
  | namespaceBlock label body s =>
    treeObject "Namespace" [("name", toJsonOption label), ("stmts", .array (toJsonList body))] s
  | classDecl label resolved members s =>
    treeObject "Class"
      [("name", toJsonOption label), ("namespaced_name", toJsonOption resolved),
       ("members", .array (toJsonList members))] s
  | property modifiers items s =>
    treeObject "Property"
      [("modifiers", modifiers.toJson), ("props", .array (toJsonList items))] s
  | propertyItem label initial s =>
    treeObject "PropertyItem" [("name", toJson label), ("default", toJsonOption initial)] s
  | method modifiers label params body s =>
    treeObject "ClassMethod"
      [("modifiers", modifiers.toJson), ("name", toJson label),
       ("params", .array (toJsonList params)), ("body", toJsonBody body)] s
  | methodCall target label args s =>
    treeObject "MethodCall"
      [("target", toJson target), ("method", toJson label), ("args", .array (toJsonList args))] s
  | functionCall callee args s =>
    treeObject "FunctionCall" [("name", toJson callee), ("args", .array (toJsonList args))] s
  | construct cls args s =>
    treeObject "New" [("class", toJson cls), ("args", .array (toJsonList args))] s
  | index base key s =>
    treeObject "ArrayDimFetch" [("base", toJson base), ("index", toJsonOption key)] s
  | member base label s =>
    treeObject "PropertyFetch" [("base", toJson base), ("property", toJson label)] s
  | assign target value s =>
    treeObject "Assign" [("target", toJson target), ("value", toJson value)] s
  | addAssign target value s =>
    treeObject "AssignAdd" [("target", toJson target), ("value", toJson value)] s
  | concat left right s =>
    treeObject "Concat" [("left", toJson left), ("right", toJson right)] s
  | arrowFunction params body s =>
    treeObject "ArrowFunction" [("params", .array (toJsonList params)), ("body", toJson body)] s
  | closure params uses body s =>
    treeObject "Closure"
      [("params", .array (toJsonList params)), ("uses", .array (toJsonList uses)),
       ("stmts", .array (toJsonList body))] s
  | array slots s => treeObject "Array" [("items", .array (toJsonSlots slots))] s
  | arrayItem key value s =>
    treeObject "ArrayItem" [("key", toJsonOption key), ("value", toJson value)] s
  | argument value s => treeObject "Argument" [("value", toJson value)] s
  | parameter bound s => treeObject "Parameter" [("var", toJson bound)] s
  | var label s => treeObject "Variable" [("name", .string label)] s
  | constant label s => treeObject "ConstFetch" [("name", toJson label)] s
  | integer value s => treeObject "Int" [("value", .integer value)] s
  | float value s => treeObject "Float" [("value", value.toJson)] s
  | string value s => treeObject "String" [("value", .string value)] s
  | identifier label s => treeObject "Identifier" [("name", .string label)] s
  | name parts fullyQualified s =>
    treeObject "Name"
      [("parts", .array (parts.map .string)), ("fully_qualified", .bool fullyQualified)] s
  | other kind children s =>
    treeObject "Other" [("kind", .string kind), ("children", .array (toJsonList children))] s

/-- The JSON forms of the nodes of a list. -/
def toJsonList : List Node → List Json
  | [] => []
  | node :: rest => toJson node :: toJsonList rest

/-- The JSON form of a part that may be absent. -/
def toJsonOption : Option Node → Json
  | none => .null
  | some node => toJson node

/-- The JSON forms of the slots of an array. -/
def toJsonSlots : List (Option Node) → List Json
  | [] => []
  | slot :: rest => toJsonOption slot :: toJsonSlots rest

/-- The JSON form of the body of a method, which an abstract one lacks. -/
def toJsonBody : Option (List Node) → Json
  | none => .null
  | some body => .array (toJsonList body)

end

end Node

end PhpScript
