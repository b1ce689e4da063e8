import PhpScript.Number.Double
import PhpScript.Text.Span

/-!
# Syntax trees

The nodes of a program. Every construct with a rule of its own has a
constructor; any other construct that can be recognised is `Node.other`, which
names its kind. Every node carries the span of the text it was read from.

The type does not sort nodes into statements and expressions: a tree may come
from outside, and any node can stand anywhere in it.
-/

namespace PhpScript

/-! ## Modifiers -/

/-- The modifiers of a class member. -/
structure Modifiers where
  isPublic : Bool := false
  isProtected : Bool := false
  isPrivate : Bool := false
  isStatic : Bool := false
  isAbstract : Bool := false
  isFinal : Bool := false
  isReadonly : Bool := false
deriving DecidableEq, Repr

namespace Modifiers

/-- No modifier. -/
def empty : Modifiers := {}

/-- Whether there is no modifier. -/
def isEmpty (m : Modifiers) : Bool := m == empty

/-- The modifiers of a bit set, the first of them being the lowest bit. Higher
    bits than the seventh are ignored. -/
def ofBits (bits : Nat) : Modifiers :=
  ⟨bits.testBit 0, bits.testBit 1, bits.testBit 2, bits.testBit 3, bits.testBit 4, bits.testBit 5,
   bits.testBit 6⟩

/-- Both sets of modifiers together. -/
def union (m n : Modifiers) : Modifiers :=
  ⟨m.isPublic || n.isPublic, m.isProtected || n.isProtected, m.isPrivate || n.isPrivate,
   m.isStatic || n.isStatic, m.isAbstract || n.isAbstract, m.isFinal || n.isFinal,
   m.isReadonly || n.isReadonly⟩

/-- The names of the modifiers, in the order of their bits. -/
def names (m : Modifiers) : List String :=
  [(m.isPublic, "PUBLIC"), (m.isProtected, "PROTECTED"), (m.isPrivate, "PRIVATE"),
   (m.isStatic, "STATIC"), (m.isAbstract, "ABSTRACT"), (m.isFinal, "FINAL"),
   (m.isReadonly, "READONLY")].filterMap fun (set, name) => if set then some name else none

end Modifiers

/-! ## Nodes -/

/-- A node of a syntax tree. -/
inductive Node
  /-- An expression used as a statement. -/
  | expression (expr : Node) (span : Span)
  /-- `return;` or `return $x;` -/
  | returns (value : Option Node) (span : Span)
  /-- A namespace with the statements it owns. -/
  | namespaceBlock (name : Option Node) (body : List Node) (span : Span)
  /-- A class. The resolved name is the name with its namespace, when known. -/
  | classDecl (name resolvedName : Option Node) (members : List Node) (span : Span)
  /-- `private static $a = 1, $b;` -/
  | property (modifiers : Modifiers) (items : List Node) (span : Span)
  /-- One name of a property declaration, with its initial value. -/
  | propertyItem (name : Node) (initial : Option Node) (span : Span)
  /-- A method; an abstract one has no body. -/
  | method (modifiers : Modifiers) (name : Node) (params : List Node) (body : Option (List Node))
      (span : Span)
  /-- `$target->name(args)` -/
  | methodCall (target name : Node) (args : List Node) (span : Span)
  /-- `callee(args)` -/
  | functionCall (callee : Node) (args : List Node) (span : Span)
  /-- `new Class(args)` -/
  | construct (cls : Node) (args : List Node) (span : Span)
  /-- `$base[key]`; `$base[]` has no key. -/
  | index (base : Node) (key : Option Node) (span : Span)
  /-- `$base->name` -/
  | member (base name : Node) (span : Span)
  /-- `$target = value` -/
  | assign (target value : Node) (span : Span)
  /-- `$target += value` -/
  | addAssign (target value : Node) (span : Span)
  /-- `left . right` -/
  | concat (left right : Node) (span : Span)
  /-- `fn ($x) => body` -/
  | arrowFunction (params : List Node) (body : Node) (span : Span)
  /-- `function ($x) use ($y) { body }` -/
  | closure (params uses body : List Node) (span : Span)
  /-- `[a, , b]`; a slot can be empty. -/
  | array (slots : List (Option Node)) (span : Span)
  /-- An item of an array, with a key or without. -/
  | arrayItem (key : Option Node) (value : Node) (span : Span)
  /-- An argument of a call. -/
  | argument (value : Node) (span : Span)
  /-- A parameter of a function. -/
  | parameter (var : Node) (span : Span)
  /-- `$name` -/
  | var (name : String) (span : Span)
  /-- A constant such as `null`. -/
  | constant (name : Node) (span : Span)
  | integer (value : Int) (span : Span)
  | float (value : Double) (span : Span)
  | string (value : String) (span : Span)
  /-- The name of a member or of a declaration. -/
  | identifier (name : String) (span : Span)
  /-- A name in an expression, qualified or not; `\Foo` is fully qualified. -/
  | name (parts : List String) (fullyQualified : Bool) (span : Span)
  /-- A construct without a rule, by the name of its kind. -/
  | other (kind : String) (children : List Node) (span : Span)
deriving Inhabited

namespace Node

/-- The place that a node was read from. -/
def span : Node → Span
  | expression _ s | returns _ s | namespaceBlock _ _ s | classDecl _ _ _ s | property _ _ s
  | propertyItem _ _ s | method _ _ _ _ s | methodCall _ _ _ s | functionCall _ _ s
  | construct _ _ s | index _ _ s | member _ _ s | assign _ _ s | addAssign _ _ s | concat _ _ s
  | arrowFunction _ _ s | closure _ _ _ s | array _ s | arrayItem _ _ s | argument _ s
  | parameter _ s | var _ s | constant _ s | integer _ s | float _ s | string _ s
  | identifier _ s | name _ _ s | other _ _ s => s

/-- The name of a node's kind, in the vocabulary of syntax tree dumps. -/
def kindName : Node → String
  | expression .. => "Stmt_Expression"
  | returns .. => "Stmt_Return"
  | namespaceBlock .. => "Stmt_Namespace"
  | classDecl .. => "Stmt_Class"
  | property .. => "Stmt_Property"
  | propertyItem .. => "PropertyItem"
  | method .. => "Stmt_ClassMethod"
  | methodCall .. => "Expr_MethodCall"
  | functionCall .. => "Expr_FuncCall"
  | construct .. => "Expr_New"
  | index .. => "Expr_ArrayDimFetch"
  | member .. => "Expr_PropertyFetch"
  | assign .. => "Expr_Assign"
  | addAssign .. => "Expr_AssignOp_Plus"
  | concat .. => "Expr_BinaryOp_Concat"
  | arrowFunction .. => "Expr_ArrowFunction"
  | closure .. => "Expr_Closure"
  | array .. => "Expr_Array"
  | arrayItem .. => "ArrayItem"
  | argument .. => "Arg"
  | parameter .. => "Param"
  | var .. => "Expr_Variable"
  | constant .. => "Expr_ConstFetch"
  | integer .. => "Scalar_Int"
  | float .. => "Scalar_Float"
  | string .. => "Scalar_String"
  | identifier .. => "Identifier"
  | name _ fullyQualified _ => if fullyQualified then "Name_FullyQualified" else "Name"
  | other kind _ _ => kind

/-- Whether a node can stand on the left of an assignment. -/
def isAssignable : Node → Bool
  | var .. | index .. | member .. => true
  | _ => false

end Node

end PhpScript
