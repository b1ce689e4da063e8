import PhpScript.Literal.Number
import PhpScript.Literal.Quoted
import PhpScript.Parse.Name

/-!
# Expressions

The forms of an expression, each given how the parts that nest deeper are
parsed. Operators bind by their precedence; those of one precedence group to
the left, and assignment groups to the right.
-/

namespace PhpScript.Parse

/-! ## Operators -/

/-- The precedence of a binary operator, which is higher for one that binds
    tighter, and the kind of its node. -/
def binaryOperator? : TokenKind → Option (Nat × String)
  | .symbol .barBar => some (1, "Expr_BinaryOp_BooleanOr")
  | .symbol .ampersandAmpersand => some (2, "Expr_BinaryOp_BooleanAnd")
  | .symbol .equalsEquals => some (3, "Expr_BinaryOp_Equal")
  | .symbol .equalsEqualsEquals => some (3, "Expr_BinaryOp_Identical")
  | .symbol .exclamationEquals => some (3, "Expr_BinaryOp_NotEqual")
  | .symbol .exclamationEqualsEquals => some (3, "Expr_BinaryOp_NotIdentical")
  | .symbol .lessThan => some (4, "Expr_BinaryOp_Smaller")
  | .symbol .lessThanEquals => some (4, "Expr_BinaryOp_SmallerOrEqual")
  | .symbol .greaterThan => some (4, "Expr_BinaryOp_Greater")
  | .symbol .greaterThanEquals => some (4, "Expr_BinaryOp_GreaterOrEqual")
  | .symbol .dot => some (5, "Expr_BinaryOp_Concat")
  | .symbol .plus => some (6, "Expr_BinaryOp_Plus")
  | .symbol .minus => some (6, "Expr_BinaryOp_Minus")
  | .symbol .asterisk => some (7, "Expr_BinaryOp_Mul")
  | .symbol .slash => some (7, "Expr_BinaryOp_Div")
  | .symbol .percent => some (7, "Expr_BinaryOp_Mod")
  | _ => none

/-- The kind of the node of an operator that stands before its operand. -/
def unaryOperator? : TokenKind → Option String
  | .symbol .exclamation => some "Expr_BooleanNot"
  | .symbol .minus => some "Expr_UnaryMinus"
  | .symbol .plus => some "Expr_UnaryPlus"
  | _ => none

/-- Whether a token continues the expression before it by an access or a call. -/
def isPostfix : TokenKind → Bool
  | .symbol .arrow | .symbol .nullsafeArrow | .symbol .openBracket | .symbol .openParen
  | .symbol .doubleColon => true
  | _ => false

/-- The node of an assignment by an operator, from `start` on; none if the token
    is no such operator. -/
def assignment? : TokenKind → Option (Node → Node → Span → Parser Node)
  | .symbol .equals => some fun target value start =>
    return .assign target value (← spanFrom start)
  | .symbol .plusEquals => some fun target value start =>
    return .addAssign target value (← spanFrom start)
  | .symbol .minusEquals => some fun target value => other "Expr_AssignOp_Minus" [target, value]
  | .symbol .asteriskEquals => some fun target value => other "Expr_AssignOp_Mul" [target, value]
  | .symbol .slashEquals => some fun target value => other "Expr_AssignOp_Div" [target, value]
  | .symbol .dotEquals => some fun target value => other "Expr_AssignOp_Concat" [target, value]
  | _ => none

/-- The node of a binary operator, from `start` on. -/
def binaryNode (operator : TokenKind) (kind : String) (left right : Node) (start : Span) :
    Parser Node :=
  if operator = .symbol .dot then return .concat left right (← spanFrom start)
  else other kind [left, right] start

section

variable (expression : Parser Node)

/-! ## Arguments and members -/

/-- An argument of a call. -/
def argument : Parser Node := do
  if (← current).kind.isIdentifierLike && (← following) == .symbol .colon then
    complain (.unsupported .namedArguments)
  if ← isAt (.symbol .ellipsis) then complain (.unsupported .argumentUnpacking)
  let start := (← current).span
  let value ← expression
  return .argument value (← spanFrom start)

/-- The arguments of a call, in parentheses. -/
def arguments : Parser (List Node) := do
  let _ ← expect (.symbol .openParen)
  let args ← commaListUntil .closeParen (argument expression)
  let _ ← expect (.symbol .closeParen)
  return args

/-- An expression before a closing mark. -/
def enclosed (close : Symbol) : Parser Node := do
  let expr ← expression
  let _ ← expect (.symbol close)
  return expr

/-- The name after an arrow: an identifier, a variable, or an expression in braces. -/
def memberName : Parser Node := do
  let token ← current
  match token.kind with
  | .varName => return varOf (← advance)
  | .symbol .openBrace =>
    let _ ← advance
    enclosed expression .closeBrace
  | _ => identifier

/-! ## Accesses and calls -/

/-- What follows `::` on a class: a variable, a method call or a constant. -/
def staticAccess (cls : Node) (start : Span) : Parser Node := do
  if ← isAt .varName then
    let var := varOf (← advance)
    other "Expr_StaticPropertyFetch" [cls, var] start
  else
    let member ← identifier
    if ← isAt (.symbol .openParen) then
      other "Expr_StaticCall" (cls :: member :: (← arguments expression)) start
    else
      other "Expr_ClassConstFetch" [cls, member] start

/-- One access or call on the expression `base`, which begins at `start`. -/
def postfixLink (base : Node) (start : Span) : Parser Node := do
  match (← current).kind with
  | .symbol .arrow =>
    let _ ← advance
    let label ← memberName expression
    if ← isAt (.symbol .openParen) then
      let args ← arguments expression
      return .methodCall base label args (← spanFrom start)
    else
      return .member base label (← spanFrom start)
  | .symbol .nullsafeArrow =>
    let _ ← advance
    let label ← memberName expression
    if ← isAt (.symbol .openParen) then
      other "Expr_NullsafeMethodCall" (base :: label :: (← arguments expression)) start
    else
      other "Expr_NullsafePropertyFetch" [base, label] start
  | .symbol .openBracket =>
    let _ ← advance
    let key ← if ← isAt (.symbol .closeBracket) then pure none else some <$> expression
    let _ ← expect (.symbol .closeBracket)
    return .index base key (← spanFrom start)
  | .symbol .openParen =>
    let args ← arguments expression
    return .functionCall base args (← spanFrom start)
  | .symbol .doubleColon =>
    let _ ← advance
    staticAccess expression base start
  | _ => return base

/-! ## Primary expressions -/

/-- The class of an object construction. -/
def constructedClass : Parser Node := do
  match (← current).kind with
  | .keyword .classKw => complain (.unsupported .anonymousClasses)
  | .varName => return varOf (← advance)
  | .symbol .openParen =>
    let _ ← advance
    enclosed expression .closeParen
  | _ => name

/-- `new Foo(args)`, `new Foo`, `new $class(args)` -/
def construction : Parser Node := do
  let start := (← expect (.keyword .newKw)).span
  let cls ← constructedClass expression
  let args ← if ← isAt (.symbol .openParen) then arguments expression else pure []
  return .construct cls args (← spanFrom start)

/-- An item of an array, with a key or without. -/
def arrayItem : Parser Node := do
  let start := (← current).span
  if ← isAt (.symbol .ampersand) then complain (.unsupported .byRefArrayItems)
  if ← isAt (.symbol .ellipsis) then complain (.unsupported .arrayUnpacking)
  let first ← expression
  if ← accept (.symbol .doubleArrow) then
    let value ← expression
    return .arrayItem (some first) value (← spanFrom start)
  else
    return .arrayItem none first (← spanFrom start)

/-- One slot of an array, up to the mark that closes the array. -/
def arraySlot (close : Symbol) : Parser (Round (Option Node)) := do
  if ← accept (.symbol close) then return .stop
  if ← accept (.symbol .comma) then return .more none
  let item ← arrayItem expression
  if ← accept (.symbol .comma) then return .more (some item)
  let _ ← expect (.symbol close)
  return .last (some item)

/-- An array between two marks, which begins at `start`. -/
def arrayLiteral (opening close : Symbol) (start : Span) : Parser Node := do
  let _ ← expect (.symbol opening)
  let slots ← gather (arraySlot expression close)
  return .array slots (← spanFrom start)

/-- `fn (params) => body`, which begins at `start`. -/
def arrowFunction (start : Span) : Parser Node := do
  let _ ← expect (.keyword .fnKw)
  refuseByRefReturn
  let params ← parameterList
  skipReturnType
  let _ ← expect (.symbol .doubleArrow)
  let body ← expression
  return .arrowFunction params body (← spanFrom start)

/-- `function (params) use ($a, $b) { statements }`, which begins at `start`. -/
def closure (block : Parser (List Node)) (start : Span) : Parser Node := do
  let _ ← expect (.keyword .functionKw)
  refuseByRefReturn
  let params ← parameterList
  let uses ← closureBindings
  skipReturnType
  let body ← block
  return .closure params uses body (← spanFrom start)

/-- The node of a numeric literal. -/
def numeralNode (span : Span) : Numeral → Node
  | .integer value => .integer value span
  | .float value => .float value span

/-- A name that begins an expression: a constant, unless a call or a static
    access follows. -/
def nameOrConstant (start : Span) : Parser Node := do
  let label ← name
  if (← isAt (.symbol .openParen)) || (← isAt (.symbol .doubleColon)) then return label
  else return .constant label start

/-- An expression without operators. -/
def primary (block : Parser (List Node)) : Parser Node := do
  let token ← current
  let start := token.span
  match token.kind with
  | .varName => return varOf (← advance)
  | .integer =>
    let _ ← advance
    match Literal.integer? token.text with
    | some numeral => return numeralNode start numeral
    | none => throw (.invalidNumber start)
  | .float =>
    let _ ← advance
    match Literal.float? token.text with
    | some value => return .float value start
    | none => throw (.invalidNumber start)
  | .singleQuoted =>
    let _ ← advance
    return .string (Literal.singleQuoted token.text) start
  | .doubleQuoted =>
    let _ ← advance
    match Literal.doubleQuoted? token.text with
    | some value => return .string value start
    | none => other "Scalar_InterpolatedString" [] start
  | .symbol .openBracket => arrayLiteral expression .openBracket .closeBracket start
  | .keyword .arrayKw =>
    if (← following) == .symbol .openParen then
      let _ ← advance
      arrayLiteral expression .openParen .closeParen start
    else complain .expectedExpression
  | .symbol .openParen =>
    let _ ← advance
    enclosed expression .closeParen
  | .keyword .newKw => construction expression
  | .keyword .fnKw => arrowFunction expression start
  | .keyword .functionKw => closure block start
  | .keyword .staticKw =>
    match ← following with
    | .keyword .fnKw =>
      let _ ← advance
      arrowFunction expression start
    | .keyword .functionKw =>
      let _ ← advance
      closure block start
    | _ => nameOrConstant start
  | .identifier | .symbol .backslash => nameOrConstant start
  | _ => complain .expectedExpression

end

end PhpScript.Parse
