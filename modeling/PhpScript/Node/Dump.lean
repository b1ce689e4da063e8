import PhpScript.Json.Reader
import PhpScript.Node.Basic
import PhpScript.Node.Unsupported
import PhpScript.Text.Split

/-!
# Syntax tree dumps

Trees can be read from a JSON dump of a syntax tree: an array of statements,
each an object whose `nodeType` names its kind. Two dialects of the dumps
differ in some of these names, and in how a qualified name is spelled; both are
read. A node of a kind without a rule becomes `Node.other`, and its parts are
not read.

Since a value of depth zero is no object, a value is read by as many rounds of
`Dump.readWith` as its depth.
-/

namespace PhpScript

namespace Dump

/-! ## Errors -/

/-- What is wrong with the members of a node. -/
inductive Complaint
  | missing (member : String)
  | notAnArray (member : String)
  | notAString (member : String)
  | partsNotStrings
  | valueNotInteger
  | valueNotNumeric
  /-- A construct that is refused. -/
  | unsupported (what : Unsupported)
  /-- A construct that a flag marks and that is refused. -/
  | flagged (what : Unsupported)
deriving DecidableEq, Repr

/-- The complaint in words. -/
def Complaint.message : Complaint → String
  | missing member => "missing `" ++ member ++ "`"
  | notAnArray member => "expected `" ++ member ++ "` to be an array"
  | notAString member => "expected `" ++ member ++ "` to be a string"
  | partsNotStrings => "expected name parts to be strings"
  | valueNotInteger => "expected an integer `value`"
  | valueNotNumeric => "expected a numeric `value`"
  | unsupported what => what.refusal
  | flagged what => what.describe ++ " are not supported"

/-- Why a text is no dump of a tree. -/
inductive Fault
  | syntaxError (error : Json.SyntaxError)
  | notStatements
  | notANode
  | noNodeType
  | inNode (complaint : Complaint) (nodeType : String)
deriving DecidableEq, Repr

/-- The fault in words. -/
def Fault.message : Fault → String
  | syntaxError error => "invalid AST JSON: " ++ error.message
  | notStatements => "invalid AST JSON: expected an array of statements"
  | notANode => "invalid AST JSON: expected a node object"
  | noNodeType => "invalid AST JSON: node without `nodeType`"
  | inNode complaint nodeType => complaint.message ++ " in " ++ nodeType

/-- A fault with the span of the node it was found in. -/
structure Error where
  fault : Fault
  span : Span
deriving DecidableEq, Repr

/-- The error in words. -/
def Error.message (e : Error) : String := e.fault.message

/-! ## The members of a node -/

/-- The object of a node: its kind, its members and its span. -/
structure Entry where
  nodeType : String
  members : List (String × Json)
  span : Span

/-- A position of the file attributes, when it is a 32-bit offset. -/
def position? (attributes : List (String × Json)) (name : String) : Option Nat := do
  let n ← (← Json.find? name attributes).int64?
  if 0 ≤ n ∧ n ≤ Span.limit then some n.toNat else none

/-- The span that the attributes of a node give: its last position is inclusive. -/
def spanOf (members : List (String × Json)) : Span :=
  let attributes := ((Json.find? "attributes" members).bind Json.members?).getD []
  match position? attributes "startFilePos", position? attributes "endFilePos" with
  | some start, some stop => if start ≤ stop then ⟨start, min (stop + 1) Span.limit⟩ else .unknown
  | _, _ => .unknown

namespace Entry

/-- An error in this node. -/
def fail (e : Entry) (complaint : Complaint) : Except Error α :=
  .error ⟨.inNode complaint e.nodeType, e.span⟩

/-- A member; null counts as absent. -/
def get? (e : Entry) (name : String) : Option Json :=
  (Json.find? name e.members).filter (!·.isNull)

/-- The items of a member that has to be an array. -/
def items (e : Entry) (name : String) : Except Error (List Json) :=
  match (e.get? name).bind Json.items? with
  | some items => .ok items
  | none => e.fail (.notAnArray name)

/-- The text of a member that has to be a string. -/
def string (e : Entry) (name : String) : Except Error String :=
  match (e.get? name).bind Json.string? with
  | some text => .ok text
  | none => e.fail (.notAString name)

/-- Refuses the node when a flag is set. -/
def refuse (e : Entry) (flag : String) (what : Unsupported) : Except Error Unit :=
  if (e.get? flag).bind Json.bool? == some true then e.fail (.flagged what) else .ok ()

/-- The modifiers of a member declaration. -/
def modifiers (e : Entry) : Modifiers :=
  match (e.get? "flags") with
  | some (.integer n) => if 0 ≤ n ∧ n < twoTo 32 then .ofBits n.toNat else .empty
  | _ => .empty

/-- The parts of a name: a list of them, or one text with backslashes between. -/
def nameParts (e : Entry) : Except Error (List String) :=
  match (e.get? "parts").bind Json.items? with
  | some parts =>
    match parts.mapM Json.string? with
    | some texts => .ok texts
    | none => e.fail .partsNotStrings
  | none => Text.splitParts '\\' <$> e.string "name"

section

variable (read : Json → Except Error Node) (e : Entry)

/-- A part that has to be there. -/
def node (name : String) : Except Error Node :=
  match e.get? name with
  | some json => read json
  | none => e.fail (.missing name)

/-- A part that may be absent. -/
def node? (name : String) : Except Error (Option Node) :=
  match e.get? name with
  | some json => some <$> read json
  | none => .ok none

/-- A list of parts. -/
def nodes (name : String) : Except Error (List Node) := do
  (← e.items name).mapM read

/-- The slots of an array, of which some may be empty. -/
def slots (name : String) : Except Error (List (Option Node)) := do
  (← e.items name).mapM fun json => if json.isNull then .ok none else some <$> read json

end

end Entry

/-! ## Nodes by kind -/

/-- Whether a class extends another or implements an interface. -/
def inherits (e : Entry) : Bool :=
  (e.get? "extends").isSome ||
    (((e.get? "implements").bind Json.items?).map (!·.isEmpty)).getD false

/-- Whether the class of an object construction is declared in place. -/
def isAnonymous (e : Entry) : Bool :=
  let members := ((e.get? "class").bind Json.members?).getD []
  (Json.find? "nodeType" members).bind Json.string? == some "Stmt_Class"

/-- Reads one node, given how its parts are read. -/
def readEntry (read : Json → Except Error Node) (e : Entry) : Except Error Node :=
  match e.nodeType with
  | "Stmt_Expression" => return .expression (← e.node read "expr") e.span
  | "Stmt_Return" => return .returns (← e.node? read "expr") e.span
  | "Stmt_Namespace" =>
    return .namespaceBlock (← e.node? read "name") (← e.nodes read "stmts") e.span
  | "Stmt_Class" => do
    if inherits e then e.fail (.unsupported .inheritance)
    return .classDecl (← e.node? read "name") (← e.node? read "namespacedName")
      (← e.nodes read "stmts") e.span
  | "Stmt_Property" => return .property e.modifiers (← e.nodes read "props") e.span
  | "PropertyItem" | "Stmt_PropertyProperty" =>
    return .propertyItem (← e.node read "name") (← e.node? read "default") e.span
  | "Stmt_ClassMethod" => do
    e.refuse "byRef" .byRefReturns
    let body ← if (e.get? "stmts").isSome then some <$> e.nodes read "stmts" else pure none
    return .method e.modifiers (← e.node read "name") (← e.nodes read "params") body e.span
  | "Expr_MethodCall" =>
    return .methodCall (← e.node read "var") (← e.node read "name") (← e.nodes read "args") e.span
  | "Expr_FuncCall" =>
    return .functionCall (← e.node read "name") (← e.nodes read "args") e.span
  | "Expr_New" => do
    if isAnonymous e then e.fail (.unsupported .anonymousClasses)
    return .construct (← e.node read "class") (← e.nodes read "args") e.span
  | "Expr_ArrayDimFetch" => return .index (← e.node read "var") (← e.node? read "dim") e.span
  | "Expr_PropertyFetch" => return .member (← e.node read "var") (← e.node read "name") e.span
  | "Expr_Assign" => return .assign (← e.node read "var") (← e.node read "expr") e.span
  | "Expr_AssignOp_Plus" => return .addAssign (← e.node read "var") (← e.node read "expr") e.span
  | "Expr_BinaryOp_Concat" => return .concat (← e.node read "left") (← e.node read "right") e.span
  | "Expr_ArrowFunction" => do
    e.refuse "byRef" .byRefReturns
    return .arrowFunction (← e.nodes read "params") (← e.node read "expr") e.span
  | "Expr_Closure" => do
    e.refuse "byRef" .byRefReturns
    return .closure (← e.nodes read "params") (← e.nodes read "uses")
      (← e.nodes read "stmts") e.span
  | "Expr_ClosureUse" | "ClosureUse" => do
    -- a binding is just its variable
    e.refuse "byRef" .byRefBindings
    e.node read "var"
  | "Expr_Array" => return .array (← e.slots read "items") e.span
  | "ArrayItem" | "Expr_ArrayItem" => do
    e.refuse "byRef" .byRefArrayItems
    e.refuse "unpack" .arrayUnpacking
    return .arrayItem (← e.node? read "key") (← e.node read "value") e.span
  | "Arg" => do
    e.refuse "byRef" .byRefArguments
    e.refuse "unpack" .argumentUnpacking
    if (e.get? "name").isSome then e.fail (.unsupported .namedArguments)
    return .argument (← e.node read "value") e.span
  | "Param" => do
    e.refuse "byRef" .byRefParameters
    e.refuse "variadic" .variadicParameters
    if (e.get? "default").isSome then e.fail (.unsupported .parameterDefaults)
    if !e.modifiers.isEmpty then e.fail (.unsupported .propertyPromotion)
    return .parameter (← e.node read "var") e.span
  | "Expr_Variable" =>
    match (e.get? "name").bind Json.string? with
    | some name => .ok (.var name e.span)
    | none => e.fail (.unsupported .variableVariables)
  | "Expr_ConstFetch" => return .constant (← e.node read "name") e.span
  | "Scalar_Int" | "Scalar_LNumber" =>
    match (e.get? "value").bind Json.int64? with
    | some value => .ok (.integer value e.span)
    | none => e.fail .valueNotInteger
  | "Scalar_Float" | "Scalar_DNumber" =>
    match (e.get? "value").bind Json.double? with
    | some value => .ok (.float value e.span)
    | none => e.fail .valueNotNumeric
  | "Scalar_String" => return .string (← e.string "value") e.span
  | "Identifier" | "VarLikeIdentifier" => return .identifier (← e.string "name") e.span
  | "Name" => return .name (← e.nameParts) false e.span
  | "Name_FullyQualified" => return .name (← e.nameParts) true e.span
  | kind => .ok (.other kind [] e.span)

/-- Reads a value that has to be the object of a node, given how its parts are
    read. -/
def readWith (read : Json → Except Error Node) (json : Json) : Except Error Node :=
  match json with
  | .object members =>
    match (Json.find? "nodeType" members).bind Json.string? with
    | some nodeType => readEntry read ⟨nodeType, members, spanOf members⟩
    | none => .error ⟨.noNodeType, spanOf members⟩
  | _ => .error ⟨.notANode, .unknown⟩

/-- Reads a value whose depth is at most `rounds`. -/
def readNode : (rounds : Nat) → Json → Except Error Node
  | 0, _ => .error ⟨.notANode, .unknown⟩
  | rounds + 1, json => readWith (readNode rounds) json

/-- Reads the statements of a dump. -/
def readStatements (json : Json) : Except Error (List Node) :=
  match json with
  | .array items => items.mapM fun item => readNode item.depth item
  | _ => .error ⟨.notStatements, .unknown⟩

/-- Reads the text of a dump. -/
def ofText (text : String) : Except Error (List Node) :=
  match Json.ofText text with
  | .ok json => readStatements json
  | .error error => .error ⟨.syntaxError error, .unknown⟩

end Dump

end PhpScript
