import PhpScript.Parse.Grammar

/-!
# Programs

A program is a list of statements and namespaces. A namespace without braces
owns the statements up to the next one.

`Parse.source` reads a source text; `Parse.resume` reads on at the cursor that an
earlier reading left behind.
-/

namespace PhpScript.Parse

/-- One statement of a namespace without braces. -/
def statementInNamespace : Parser (Round (Option Node)) := do
  if (← isAt .endOfFile) || (← isAt (.keyword .namespaceKw)) then return .stop
  if ← accept (.symbol .closeTag) then return .more none
  return .more (some (← statement))

/-- The statements of a namespace. -/
def namespaceBody (label : Option Node) : Parser (List Node) := do
  if ← accept (.symbol .openBrace) then
    statementsUntil .closeBrace statement
  else
    if label.isNone then complain .expectedNamespaceName
    terminator
    return (← gather statementInNamespace).filterMap id

/-- A namespace. -/
def namespaceBlock : Parser Node := do
  let start := (← expect (.keyword .namespaceKw)).span
  let label ← if ← isAt (.symbol .openBrace) then pure none else some <$> name
  let body ← namespaceBody label
  return .namespaceBlock label body (← spanFrom start)

/-- One statement or namespace of a program. -/
def topLevel : Parser (Round (Option Node)) := do
  if ← isAt .endOfFile then return .stop
  if ← accept (.symbol .closeTag) then return .more none
  if ← isAt (.keyword .namespaceKw) then return .more (some (← namespaceBlock))
  return .more (some (← statement))

/-- The statements and namespaces from the cursor to the end of the file. -/
def program : Parser (List Node) :=
  return (← gather topLevel).filterMap id

/-- The cursor at the start of a source text. -/
def start (source : String) : Except ParseError Cursor :=
  match Token.scan source with
  | .ok tokens => .ok { rest := tokens }
  | .error error => .error (.scan error)

/-- Reads a program at a cursor, and gives the cursor it leaves behind. -/
def resume (c : Cursor) : Except ParseError (List Node) × Cursor :=
  match program c with
  | .ok nodes after => (.ok nodes, after)
  | .error error after => (.error error, after)

/-- Reads a number of programs one after the other, from the cursor that each
    leaves behind. -/
def resumeTimes : (times : Nat) → Cursor → List (Except ParseError (List Node))
  | 0, _ => []
  | n + 1, c =>
    let (result, after) := resume c
    result :: resumeTimes n after

/-- The statements and namespaces of a source text. -/
def source (text : String) : Except ParseError (List Node) := do
  (resume (← start text)).1

end PhpScript.Parse
