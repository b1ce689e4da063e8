import PhpScript.Node.Basic
import PhpScript.Node.Unsupported
import PhpScript.Token.Scan

/-!
# The token cursor

Parsing runs over the tokens of a source text with a cursor, which holds the
tokens still to be read, the end of the last one read, and how deep the parsing
is nested. A parser that fails leaves the cursor where it stopped, with the
depth it had reached.

* `Parse.within` runs a parser one level deeper and always comes back;
* `Parse.link` goes one level deeper for good, and `Parse.chain` brings the depth
  back to where it was once a chain of links has ended;
* `Parse.gather` repeats a step as long as it wants to go on.
-/

namespace PhpScript

/-! ## Errors -/

/-- What is wrong with a token. -/
inductive Complaint
  | expectedToken (kind : TokenKind)
  | expectedExpression
  | expectedName
  | expectedIdentifier
  | expectedNamespaceName
  | expectedClassMember
  | expectedReturnType
  | expectedNullableType
  | notAssignable
  | nestedNamespace
  | unsupported (what : Unsupported)
deriving DecidableEq, Repr

/-- The complaint in words. -/
def Complaint.message : Complaint → String
  | expectedToken kind => "expected " ++ kind.describe
  | expectedExpression => "expected expression"
  | expectedName => "expected name"
  | expectedIdentifier => "expected identifier"
  | expectedNamespaceName => "expected namespace name or `\x7b`"
  | expectedClassMember => "expected class member"
  | expectedReturnType => "expected return type"
  | expectedNullableType => "expected type after `?`"
  | notAssignable => "cannot assign to this expression"
  | nestedNamespace => "namespace declarations must be at the top level"
  | unsupported what => what.refusal

/-- A token as an error message names it: keywords by their spelling, others as
    they are written. -/
def Token.describe (t : Token) : String :=
  match t.kind with
  | .endOfFile => t.kind.describe
  | .keyword _ => t.kind.describe
  | _ => "`" ++ t.text ++ "`"

/-- Why a source text is no program. -/
inductive ParseError
  | scan (error : ScanError)
  | unexpected (complaint : Complaint) (found : Token)
  | invalidNumber (span : Span)
  | tooDeep (span : Span)
deriving DecidableEq, Repr

namespace ParseError

/-- The place of the error. -/
def span : ParseError → Span
  | scan error => error.span
  | unexpected _ found => found.span
  | invalidNumber span => span
  | tooDeep span => span

/-- The error in words. -/
def message : ParseError → String
  | scan error => error.message
  | unexpected complaint found => complaint.message ++ ", found " ++ found.describe
  | invalidNumber _ => "invalid numeric literal"
  | tooDeep _ => "nesting too deep"

end ParseError

/-! ## The cursor -/

/-- Where parsing stands. -/
structure Cursor where
  /-- The tokens still to be read, of which the last is the end of the file. -/
  rest : List Token
  /-- The end of the token read last. -/
  lastStop : Nat := 0
  /-- How many levels have been entered and not left. -/
  depth : Nat := 0
deriving DecidableEq, Repr

/-- The token at the cursor. -/
def Cursor.current (c : Cursor) : Token := c.rest.headD ⟨.endOfFile, .unknown, ""⟩

/-- A parser reads tokens at the cursor, and keeps the cursor when it fails. -/
abbrev Parser := EStateM ParseError Cursor

namespace Parse

/-! ## Tokens -/

/-- The token at the cursor. -/
def current : Parser Token := fun c => .ok c.current c

/-- The kind of the token after the one at the cursor. -/
def following : Parser TokenKind := fun c =>
  .ok (match c.rest with
    | _ :: next :: _ => next.kind
    | _ => .endOfFile) c

/-- Whether a token of a kind is at the cursor. -/
def isAt (kind : TokenKind) : Parser Bool := fun c => .ok (c.current.kind == kind) c

/-- Reads the token at the cursor. The end of the file is never passed. -/
def advance : Parser Token := fun c =>
  let token := c.current
  let rest := if token.kind == .endOfFile then c.rest else c.rest.tail
  .ok token { c with rest, lastStop := token.span.stop }

/-- Reads a token of a kind, if one is at the cursor. -/
def accept (kind : TokenKind) : Parser Bool := do
  if ← isAt kind then
    let _ ← advance
    return true
  else
    return false

/-- Fails at the token at the cursor. -/
def complain (complaint : Complaint) : Parser α := fun c =>
  .error (.unexpected complaint c.current) c

/-- Reads a token that has to be of a kind. -/
def expect (kind : TokenKind) : Parser Token := do
  if ← isAt kind then advance else complain (.expectedToken kind)

/-- Reads the end of a statement: a semicolon or a closing tag. -/
def terminator : Parser Unit := do
  if ← accept (.symbol .semicolon) then return
  if ← accept (.symbol .closeTag) then return
  complain (.expectedToken (.symbol .semicolon))

/-- The span from `start` to the end of the token read last. -/
def spanFrom (start : Span) : Parser Span := fun c =>
  .ok ⟨start.start, max c.lastStop start.stop⟩ c

/-- A node of a kind without a rule, from `start` on. -/
def other (kind : String) (children : List Node) (start : Span) : Parser Node :=
  return .other kind children (← spanFrom start)

/-! ## Nesting -/

/-- How deep a program may be nested. -/
def maxDepth : Nat := 256

/-- Fails as one level more would be too deep. The level counts as entered. -/
def tooDeep : Parser α := fun c =>
  .error (.tooDeep c.current.span) { c with depth := c.depth + 1 }

/-- Goes one level deeper. -/
def link : Parser Unit := fun c => .ok () { c with depth := c.depth + 1 }

/-- Runs a parser one level deeper and comes back, also when it fails. -/
def within (body : Parser α) : Parser α := fun c =>
  match body { c with depth := c.depth + 1 } with
  | .ok a c => .ok a { c with depth := c.depth - 1 }
  | .error e c => .error e { c with depth := c.depth - 1 }

/-- Runs a parser and brings the depth back to where it was, also when it fails. -/
def chain (body : Parser α) : Parser α := fun c =>
  match body c with
  | .ok a after => .ok a { after with depth := c.depth }
  | .error e after => .error e { after with depth := c.depth }

/-! ## Repetition -/

/-- What one round of a repetition says. -/
inductive Round (α : Type)
  /-- There is nothing more. -/
  | stop
  /-- This is the last one. -/
  | last (value : α)
  /-- There may be another one. -/
  | more (value : α)

/-- Repeats a step for one round more than there are tokens in `bound`. -/
def gatherFor (step : Parser (Round α)) : (bound : List Token) → Parser (List α)
  | [] => do
    match ← step with
    | .stop => return []
    | .last a | .more a => return [a]
  | _ :: bound => do
    match ← step with
    | .stop => return []
    | .last a => return [a]
    | .more a => return a :: (← gatherFor step bound)

/-- Repeats a step until it says that it is done. A step that wants to go on has
    read a token, so the tokens left bound the rounds. -/
def gather (step : Parser (Round α)) : Parser (List α) := fun c => gatherFor step c.rest c

/-- One item of a list, with the comma after it. The list ends with an item that
    no comma follows. -/
def commaItem (item : Parser α) : Parser (Round α) := do
  let a ← item
  if ← accept (.symbol .comma) then return .more a else return .last a

/-- Items with commas between them, at least one. -/
def commaSeparated (item : Parser α) : Parser (List α) := gather (commaItem item)

/-- Items with commas between them, up to a closing mark, which is not read. A
    comma may stand after the last one. -/
def commaListUntil (close : Symbol) (item : Parser α) : Parser (List α) :=
  gather do
    if ← isAt (.symbol close) then return .stop else commaItem item

end Parse

end PhpScript
