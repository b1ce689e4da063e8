import PhpScript.Node.Basic
import PhpScript.Script.Literal

/-!
# Emitting script

The script text of a syntax tree. Each node has one rule; a node without one is
refused, and so are a qualified name, an access by an index that is not there,
a member that is not named by an identifier, and a tree that is too deep.

A `Printer` holds how deep the emitting is nested. It comes back to the depth it
had, whether a node is emitted or refused, so it can be used again.
-/

namespace PhpScript

/-! ## Errors -/

/-- Why a tree has no script, with the span of the node at fault. -/
inductive EmitError
  /-- There is no rule for this kind of node. -/
  | unsupportedKind (kind : String) (span : Span)
  /-- Only names of a single part have a counterpart. -/
  | unsupportedName (name : String) (span : Span)
  /-- `$list[]` has no counterpart. -/
  | missingIndex (span : Span)
  | tooDeep (span : Span)
deriving DecidableEq, Repr

namespace EmitError

/-- The place of the error. -/
def span : EmitError → Span
  | unsupportedKind _ span => span
  | unsupportedName _ span => span
  | missingIndex span => span
  | tooDeep span => span

/-- The error in words. -/
def message : EmitError → String
  | unsupportedKind kind _ => "unsupported node kind `" ++ kind ++ "`"
  | unsupportedName name _ =>
    "unsupported name `" ++ name ++ "`: only single-segment names can be translated"
  | missingIndex _ => "array access without an index is not supported"
  | tooDeep _ => "nesting too deep"

end EmitError

/-! ## The printer -/

/-- How deep the emitting is nested. -/
structure Printer where
  depth : Nat := 0
deriving DecidableEq, Repr

/-- An emitter gives a text or fails, and keeps the printer in both cases. -/
abbrev Emitter := EStateM EmitError Printer

namespace Emit

/-- How deep a tree may be nested. -/
def maxDepth : Nat := 512

/-- Emits one level deeper and comes back; at the deepest level the node at
    `span` is refused. -/
def within (span : Span) (body : Emitter α) : Emitter α := fun p =>
  if maxDepth ≤ p.depth then .error (.tooDeep span) p
  else
    match body { p with depth := p.depth + 1 } with
    | .ok a p => .ok a { p with depth := p.depth - 1 }
    | .error e p => .error e { p with depth := p.depth - 1 }

/-- The texts with a separator between them. -/
def join (separator : String) (texts : List String) : String := String.intercalate separator texts

/-- Texts on lines of their own between braces. -/
def braces (lines : List String) : String := "\x7b\n" ++ join "\n" lines ++ "\n\x7d"

/-- Texts in parentheses. -/
def parens (texts : List String) : String := "(" ++ join ", " texts ++ ")"

/-- What stands before a static member. -/
def staticMark (modifiers : Modifiers) : String := if modifiers.isStatic then "static " else ""

/-- A name as it is written in the source. -/
def qualified (parts : List String) (fullyQualified : Bool) : String :=
  (if fullyQualified then "\\" else "") ++ join "\\" parts

/-- The text of a name, which needs to have a single part. -/
def nameText (parts : List String) (fullyQualified : Bool) (span : Span) : Emitter String :=
  match parts, fullyQualified with
  | [part], false => return part
  | _, _ => throw (.unsupportedName (qualified parts fullyQualified) span)

/-- The name of a member, which needs to be an identifier: any other picks the
    member only when the script runs. -/
def memberName (kind : String) (span : Span) : Node → Emitter String
  | .identifier name s => within s (return Script.rename name)
  | _ => throw (.unsupportedKind kind span)

mutual

/-- The text of a node. -/
def node : Node → Emitter String
  | .expression expr s => within s (node expr)
  | .returns none s => within s (return "return")
  | .returns (some value) s => within s do
    return "return " ++ (← node value)
  | .namespaceBlock _ body s => within s do
    return join "\n" (← list body)
  | .classDecl _ (some label) members s => within s do
    let label ← node label
    return "class " ++ label ++ braces (← list members)
  | .classDecl (some label) none members s => within s do
    let label ← node label
    return "class " ++ label ++ braces (← list members)
  | .classDecl none none _ s => within s (throw (.unsupportedKind "Stmt_Class" s))
  | .property modifiers items s => within s do
    return join "\n" ((← list items).map (staticMark modifiers ++ ·))
  | .propertyItem label none s => within s do
    return (← node label) ++ " = null"
  | .propertyItem label (some initial) s => within s do
    let label ← node label
    return label ++ " = " ++ (← node initial)
  | .method modifiers label params none s => within s do
    let label ← node label
    return staticMark modifiers ++ label ++ parens (← list params) ++ " " ++ braces []
  | .method modifiers label params (some body) s => within s do
    let label ← node label
    let params ← list params
    return staticMark modifiers ++ label ++ parens params ++ " " ++ braces (← list body)
  | .methodCall target label args s => within s do
    let target ← node target
    let label ← memberName "Expr_MethodCall_Dynamic" s label
    return target ++ "." ++ label ++ parens (← list args)
  | .functionCall callee args s => within s do
    let callee ← node callee
    return callee ++ parens (← list args)
  | .construct cls args s => within s do
    let cls ← node cls
    return "(new " ++ cls ++ parens (← list args) ++ ")"
  | .index _ none s => within s (throw (.missingIndex s))
  | .index base (some key) s => within s do
    let base ← node base
    return base ++ "[" ++ (← node key) ++ "]"
  | .member base label s => within s do
    let base ← node base
    return base ++ "." ++ (← memberName "Expr_PropertyFetch_Dynamic" s label)
  | .assign target value s => within s do
    let target ← node target
    return target ++ " = " ++ (← node value)
  | .addAssign target value s => within s do
    let target ← node target
    return target ++ " += " ++ (← node value)
  | .concat left right s => within s do
    let left ← node left
    return left ++ " + " ++ (← node right)
  | .arrowFunction params body s => within s do
    let params ← list params
    return parens params ++ " => " ++ (← node body)
  | .closure params _ body s => within s do
    let params ← list params
    return "function" ++ parens params ++ braces (← list body)
  | .array items s => within s do
    return "[" ++ join ", " (← slots items) ++ "]"
  | .arrayItem none value s => within s (node value)
  | .arrayItem (some key) value s => within s do
    let value ← node value
    return (← node key) ++ ": " ++ value
  | .argument value s => within s (node value)
  | .parameter bound s => within s (node bound)
  | .var name s => within s (return name)
  | .constant label s => within s (node label)
  | .integer value s => within s (return Script.integer value)
  | .float value s => within s (return Script.float value)
  | .string value s => within s (return Script.quote value)
  | .identifier name s => within s (return Script.rename name)
  | .name parts fullyQualified s => within s (nameText parts fullyQualified s)
  | .other kind _ s => within s (throw (.unsupportedKind kind s))

/-- The texts of the nodes of a list. -/
def list : List Node → Emitter (List String)
  | [] => return []
  | first :: rest => do
    let text ← node first
    return text :: (← list rest)

/-- The texts of the slots of an array; an empty one is null. -/
def slots : List (Option Node) → Emitter (List String)
  | [] => return []
  | none :: rest => return "null" :: (← slots rest)
  | some item :: rest => do
    let text ← node item
    return text :: (← slots rest)

end

/-- The texts of the nodes of a list, with a separator between them. -/
def joined (nodes : List Node) (separator : String) : Emitter String :=
  return join separator (← list nodes)

/-- The script of a program: its statements with an empty line between them. -/
def program (nodes : List Node) : Emitter String := joined nodes "\n\n"

/-! ## Using a printer -/

/-- What a printer can be asked for. -/
inductive Request
  | node (node : Node)
  | joined (nodes : List Node) (separator : String)
  | program (nodes : List Node)

/-- The emitter of a request. -/
def Request.emitter : Request → Emitter String
  | .node n => Emit.node n
  | .joined nodes separator => Emit.joined nodes separator
  | .program nodes => Emit.program nodes

/-- What a printer gives for a request, and the printer after it. -/
def serve (p : Printer) (request : Request) : Except EmitError String × Printer :=
  match request.emitter p with
  | .ok text after => (.ok text, after)
  | .error error after => (.error error, after)

/-- What one printer gives for requests one after the other. -/
def serveAll (p : Printer) : List Request → List (Except EmitError String)
  | [] => []
  | request :: rest =>
    let (result, after) := serve p request
    result :: serveAll after rest

end Emit

/-- The script of a program, from a fresh printer. -/
def Script.ofNodes (nodes : List Node) : Except EmitError String :=
  (Emit.serve {} (.program nodes)).1

end PhpScript
