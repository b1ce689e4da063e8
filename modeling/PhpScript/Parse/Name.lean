import PhpScript.Parse.Cursor

/-!
# Names, types and parameters

The parts of a program without expressions in them. Type declarations carry no
meaning for a tree and are only read over.
-/

namespace PhpScript.Parse

/-! ## Names -/

/-- The name in a variable's token, which is what follows its mark. Only beyond the largest
    offset a token can show a text that begins otherwise. -/
def varNameOf (token : Token) : String := String.ofList (token.text.toList.drop 1)

/-- The node of a variable's token. -/
def varOf (token : Token) : Node := .var (varNameOf token) token.span

/-- One part of a name, with the backslash after it if another part follows. -/
def namePart : Parser (Round String) := do
  let token ← current
  if !token.kind.isIdentifierLike then complain .expectedName
  let _ ← advance
  if (← isAt (.symbol .backslash)) && (← following).isIdentifierLike then
    let _ ← advance
    return .more token.text
  else
    return .last token.text

/-- `Foo`, `Foo\Bar`, `\Foo\Bar` -/
def name : Parser Node := do
  let start := (← current).span
  let fullyQualified ← accept (.symbol .backslash)
  let parts ← gather namePart
  return .name parts fullyQualified (← spanFrom start)

/-- The name of a declaration or of a member; keywords are allowed. -/
def identifier : Parser Node := do
  let token ← current
  if !token.kind.isIdentifierLike then complain .expectedIdentifier
  let _ ← advance
  return .identifier token.text token.span

/-! ## Types -/

/-- One word of a type, with the mark after it if the type goes on. Says whether
    it was a word. -/
def typePart : Parser (Round Bool) := do
  match (← current).kind with
  | .symbol .backslash =>
    let _ ← advance
    return .more false
  | .identifier | .keyword .arrayKw | .keyword .staticKw =>
    let _ ← advance
    match (← current).kind with
    | .symbol .backslash => return .more true
    | .symbol .bar =>
      let _ ← advance
      return .more true
    | .symbol .ampersand =>
      -- before a variable the mark makes a reference, not an intersection
      if (← following) == .varName then return .last true
      let _ ← advance
      return .more true
    | _ => return .last true
  | _ => return .stop

/-- Reads over a type, if there is one, and says whether there was. -/
def skipType : Parser Bool := do
  let nullable ← accept (.symbol .question)
  let found := (← gather typePart).any id
  if nullable && !found then complain .expectedNullableType
  return found

/-- Reads over the type after a parameter list, if there is one. -/
def skipReturnType : Parser Unit := do
  if ← accept (.symbol .colon) then
    if !(← skipType) then complain .expectedReturnType

/-! ## Parameters -/

/-- A parameter: a variable, with a type or without. -/
def parameter : Parser Node := do
  let start := (← current).span
  if (← current).kind.isModifier then complain (.unsupported .propertyPromotion)
  let _ ← skipType
  if ← isAt (.symbol .ampersand) then complain (.unsupported .byRefParameters)
  if ← isAt (.symbol .ellipsis) then complain (.unsupported .variadicParameters)
  let token ← expect .varName
  if ← isAt (.symbol .equals) then complain (.unsupported .parameterDefaults)
  return .parameter (varOf token) (← spanFrom start)

/-- The parameters of a function, in parentheses. -/
def parameterList : Parser (List Node) := do
  let _ ← expect (.symbol .openParen)
  let params ← commaListUntil .closeParen parameter
  let _ ← expect (.symbol .closeParen)
  return params

/-- Refuses a function that returns a reference. -/
def refuseByRefReturn : Parser Unit := do
  if ← isAt (.symbol .ampersand) then complain (.unsupported .byRefReturns)

/-- A variable that a closure binds. -/
def closureBinding : Parser Node := do
  if ← isAt (.symbol .ampersand) then complain (.unsupported .byRefBindings)
  return varOf (← expect .varName)

/-- The variables that a closure binds, if it binds any. -/
def closureBindings : Parser (List Node) := do
  if ← accept (.keyword .useKw) then
    let _ ← expect (.symbol .openParen)
    let uses ← commaListUntil .closeParen closureBinding
    let _ ← expect (.symbol .closeParen)
    return uses
  else
    return []

end PhpScript.Parse
