import PhpScript.Parse.Statement

/-!
# Levels of nesting

Expressions and statements nest in each other. Each of them goes one level
deeper for its parts, and so does each link of a chain of operators or of
accesses, since every link adds a level to the tree. A program may go
`Parse.maxDepth` levels deep.

A `Grammar` holds the parsers that go deeper, for a number of levels left. With
none left they refuse to; with one more they are built from those before, so
`Grammar.ofLevels` is a recursion on that number.
-/

namespace PhpScript.Parse

/-- The parsers that go a level deeper. -/
structure Grammar where
  /-- An expression. -/
  expression : Parser Node
  /-- A statement. -/
  statement : Parser Node
  /-- The operand of an operator that stands before it. -/
  operand : Parser Node
  /-- The binary operators after `left`, of a precedence of at least `least`, with
      their right operands. The expression begins at `start`. -/
  operators : (least : Nat) → (start : Span) → (left : Node) → Parser Node
  /-- The accesses and calls after `base`. The expression begins at `start`. -/
  links : (start : Span) → (base : Node) → Parser Node

namespace Grammar

/-- The operator at the cursor, when it binds at least as tight as `least`. -/
def operatorFrom? (least : Nat) : Parser (Option (TokenKind × Nat × String)) := do
  let kind := (← current).kind
  match binaryOperator? kind with
  | some (precedence, label) =>
    return if least ≤ precedence then some (kind, precedence, label) else none
  | none => return none

section

variable (g : Grammar)

/-- An expression without operators, with what is accessed or called on it. -/
def postfixExpression : Parser Node := chain do
  let start := (← current).span
  let base ← primary g.expression (block g.statement)
  g.links start base

/-- An operand with the operators before it. -/
def unary : Parser Node := do
  let token ← current
  match unaryOperator? token.kind with
  | some kind =>
    let _ ← advance
    let operand ← g.operand
    other kind [operand] token.span
  | none => g.postfixExpression

/-- Operands with binary operators between them. -/
def binary (least : Nat) : Parser Node := chain do
  let start := (← current).span
  let left ← g.unary
  g.operators least start left

/-- An assignment, or an expression without one. -/
def assignment : Parser Node := do
  let start := (← current).span
  let target ← g.binary 0
  match assignment? (← current).kind with
  | some node =>
    if !target.isAssignable then complain .notAssignable
    let _ ← advance
    let value ← g.expression
    node target value start
  | none => return target

/-- The parsers with one more level left than `g`. -/
def deeper : Grammar where
  expression := within g.assignment
  statement := within (statementBody g.expression g.statement)
  operand := within g.unary
  operators least start left := do
    match ← operatorFrom? least with
    | some (operator, precedence, kind) =>
      link
      let _ ← advance
      let right ← g.binary (precedence + 1)
      g.operators least start (← binaryNode operator kind left right start)
    | none => return left
  links start base := do
    if isPostfix (← current).kind then
      link
      g.links start (← postfixLink g.expression base start)
    else
      return base

end

/-- The parsers with no level left. -/
def closed : Grammar where
  expression := tooDeep
  statement := tooDeep
  operand := tooDeep
  operators least _ left := do
    match ← operatorFrom? least with
    | some _ => tooDeep
    | none => return left
  links _ base := do
    if isPostfix (← current).kind then tooDeep else return base

/-- The parsers with a number of levels left. -/
def ofLevels : Nat → Grammar
  | 0 => closed
  | levels + 1 => (ofLevels levels).deeper

end Grammar

/-- A statement, with the levels that are left at the cursor. -/
def statement : Parser Node := fun c => (Grammar.ofLevels (maxDepth - c.depth)).statement c

/-- An expression, with the levels that are left at the cursor. -/
def expression : Parser Node := fun c => (Grammar.ofLevels (maxDepth - c.depth)).expression c

end PhpScript.Parse
