import PhpScript.Parse.Expression

/-!
# Statements

The forms of a statement, each given how the expressions and statements in it
are parsed.
-/

namespace PhpScript.Parse

/-! ## Blocks -/

/-- One statement of a list that goes on to a closing mark; a closing tag
    between statements stands for none. -/
def statementUntil (close : Symbol) (statement : Parser Node) : Parser (Round (Option Node)) := do
  if ← isAt (.symbol close) then return .stop
  if ← isAt .endOfFile then complain (.expectedToken (.symbol close))
  if ← accept (.symbol .closeTag) then return .more none
  return .more (some (← statement))

/-- The statements up to a closing mark, which is read. -/
def statementsUntil (close : Symbol) (statement : Parser Node) : Parser (List Node) := do
  let statements ← gather (statementUntil close statement)
  let _ ← expect (.symbol close)
  return statements.filterMap id

/-- Statements in braces. -/
def block (statement : Parser Node) : Parser (List Node) := do
  let _ ← expect (.symbol .openBrace)
  statementsUntil .closeBrace statement

section

variable (expression statement : Parser Node)

/-! ## Classes -/

/-- The modifiers that a token stands for. -/
def modifier? : TokenKind → Option Modifiers
  | .keyword .publicKw | .keyword .varKw => some { isPublic := true }
  | .keyword .protectedKw => some { isProtected := true }
  | .keyword .privateKw => some { isPrivate := true }
  | .keyword .staticKw => some { isStatic := true }
  | .keyword .abstractKw => some { isAbstract := true }
  | .keyword .finalKw => some { isFinal := true }
  | .keyword .readonlyKw => some { isReadonly := true }
  | _ => none

/-- One modifier of a class member. -/
def modifier : Parser (Round Modifiers) := do
  match modifier? (← current).kind with
  | some flag =>
    let _ ← advance
    return .more flag
  | none => return .stop

/-- The modifiers of a class member. -/
def modifiers : Parser Modifiers :=
  return (← gather modifier).foldl Modifiers.union .empty

/-- `$name` or `$name = initial` in a property declaration. -/
def propertyItem : Parser Node := do
  let token ← expect .varName
  let label := Node.identifier (varNameOf token) token.span
  let initial ← if ← accept (.symbol .equals) then some <$> expression else pure none
  return .propertyItem label initial (← spanFrom token.span)

/-- The traits that a class uses, from `start` on. -/
def traitUse (start : Span) : Parser Node := do
  let traits ← commaSeparated name
  terminator
  other "Stmt_TraitUse" traits start

/-- A method, after its modifiers and the keyword. -/
def method (flags : Modifiers) (start : Span) : Parser Node := do
  refuseByRefReturn
  let label ← identifier
  let params ← parameterList
  skipReturnType
  let body ← if ← accept (.symbol .semicolon) then pure none else some <$> block statement
  return .method flags label params body (← spanFrom start)

/-- Whether the token is an identifier that spells a word, in any letter case. -/
def spells (token : Token) (word : String) : Bool :=
  token.kind == .identifier && token.text.toList.map Char.toLower == word.toList

/-- A property declaration, after its modifiers. -/
def property (flags : Modifiers) (start : Span) : Parser Node := do
  let _ ← skipType
  let items ← commaSeparated (propertyItem expression)
  terminator
  return .property flags items (← spanFrom start)

/-- A member of a class. -/
def classMember : Parser Node := do
  let start := (← current).span
  if ← accept (.keyword .useKw) then
    traitUse start
  else
    if ← isAt (.symbol .attributeStart) then complain (.unsupported .attributes)
    let flags ← modifiers
    if ← accept (.keyword .functionKw) then
      method statement flags start
    else if flags.isEmpty then
      if spells (← current) "const" then complain (.unsupported .classConstants)
      complain .expectedClassMember
    else
      property expression flags start

/-- One member of a class, up to the brace that closes the class. -/
def classMemberUntil : Parser (Round Node) := do
  if ← accept (.symbol .closeBrace) then return .stop
  if ← isAt .endOfFile then complain (.expectedToken (.symbol .closeBrace))
  return .more (← classMember expression statement)

/-- A class, from its keyword on. Its span begins at `start`. -/
def classDeclaration (start : Span) : Parser Node := do
  let _ ← expect (.keyword .classKw)
  let label ← identifier
  let token ← current
  if spells token "extends" || spells token "implements" then complain (.unsupported .inheritance)
  let _ ← expect (.symbol .openBrace)
  let members ← gather (classMemberUntil expression statement)
  return .classDecl (some label) none members (← spanFrom start)

/-- One modifier of a class, which carries no meaning for a tree. -/
def classModifier : Parser (Round Unit) := do
  match (← current).kind with
  | .keyword .abstractKw | .keyword .finalKw | .keyword .readonlyKw =>
    let _ ← advance
    return .more ()
  | _ => return .stop

/-! ## Conditions and functions -/

/-- A condition in parentheses. -/
def condition : Parser Node := do
  let _ ← expect (.symbol .openParen)
  enclosed expression .closeParen

/-- A further branch of a condition. -/
def branch : Parser (Round Node) := do
  let start := (← current).span
  if ← accept (.keyword .elseIfKw) then
    let test ← condition expression
    let body ← statement
    return .more (← other "Stmt_ElseIf" [test, body] start)
  else if ← accept (.keyword .elseKw) then
    let body ← statement
    return .last (← other "Stmt_Else" [body] start)
  else
    return .stop

/-- `if (test) statement`, with its further branches. -/
def conditional : Parser Node := do
  let start := (← expect (.keyword .ifKw)).span
  let test ← condition expression
  let body ← statement
  let branches ← gather (branch expression statement)
  other "Stmt_If" (test :: body :: branches) start

/-- `function name(params) { body }` as a statement. -/
def functionDeclaration : Parser Node := do
  let start := (← expect (.keyword .functionKw)).span
  let label ← identifier
  let params ← parameterList
  skipReturnType
  let body ← block statement
  other "Stmt_Function" (label :: params ++ body) start

/-! ## Simple statements -/

/-- Reads over tokens up to a mark or the end of the file. -/
def skipUntil (mark : Symbol) : Parser Unit := do
  let _ ← gather do
    if (← isAt (.symbol mark)) || (← isAt .endOfFile) then return .stop
    let _ ← advance
    return Round.more ()

/-- A return, with a value or without. -/
def returnStatement (start : Span) : Parser Node := do
  let _ ← advance
  let value ←
    if (← isAt (.symbol .semicolon)) || (← isAt (.symbol .closeTag)) then pure none
    else some <$> expression
  terminator
  return .returns value (← spanFrom start)

/-- The statement of an output command. -/
def echoStatement (start : Span) : Parser Node := do
  let _ ← advance
  let values ← commaSeparated expression
  terminator
  other "Stmt_Echo" values start

/-- An import, which is read over. -/
def useStatement (start : Span) : Parser Node := do
  let _ ← advance
  skipUntil .semicolon
  terminator
  other "Stmt_Use" [] start

/-- A directive, which is read over. -/
def declareStatement (start : Span) : Parser Node := do
  let _ ← advance
  let _ ← expect (.symbol .openParen)
  skipUntil .closeParen
  let _ ← expect (.symbol .closeParen)
  terminator
  other "Stmt_Declare" [] start

/-- An expression as a statement. -/
def expressionStatement (start : Span) : Parser Node := do
  let expr ← expression
  terminator
  return .expression expr (← spanFrom start)

/-- A class after the modifiers before its keyword. -/
def modifiedClass (start : Span) : Parser Node := do
  let _ ← gather classModifier
  classDeclaration expression statement start

/-- A statement of any form. -/
def statementBody : Parser Node := do
  let token ← current
  let start := token.span
  match token.kind with
  | .inlineHtml =>
    let _ ← advance
    other "Stmt_InlineHTML" [] start
  | .symbol .semicolon =>
    let _ ← advance
    other "Stmt_Nop" [] start
  | .symbol .openBrace => do
    let body ← block statement
    other "Stmt_Block" body start
  | .keyword .returnKw => returnStatement expression start
  | .keyword .echoKw => echoStatement expression start
  | .keyword .ifKw => conditional expression statement
  | .keyword .useKw => useStatement start
  | .keyword .declareKw => declareStatement start
  | .keyword .functionKw =>
    if (← following).isIdentifierLike then functionDeclaration statement
    else expressionStatement expression start
  | .keyword .classKw => classDeclaration expression statement start
  | .keyword .abstractKw | .keyword .finalKw | .keyword .readonlyKw =>
    modifiedClass expression statement start
  | .keyword .namespaceKw => complain .nestedNamespace
  | .symbol .attributeStart => complain (.unsupported .attributes)
  | _ => expressionStatement expression start

end

end PhpScript.Parse
