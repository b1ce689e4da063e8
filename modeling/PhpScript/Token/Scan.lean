import PhpScript.Text.Span
import PhpScript.Token.Rule

/-!
# Scanning

A source text alternates between plain text and code. Plain text runs up to an
opening tag and becomes one token; code is cut into lexemes by the longest
match of `Rule.longest?`, and a closing tag returns to plain text, taking one
line end directly after it along. White space and comments leave no token.

`Token.scan` gives the tokens of a text, of which the last, and only the last,
is the end of the file.

What a token shows is the text that its span covers, and plain text goes on where
the span of the closing tag ends. In a text beyond the largest offset of a span
neither has to be what was read.
-/

namespace PhpScript

/-- A piece of the source text: its place, and the text that stands there. -/
structure Token where
  kind : TokenKind
  span : Span
  text : String
deriving DecidableEq, Repr

/-- Input that is no token. -/
inductive ScanError
  /-- No rule matches here. -/
  | unrecognized (text : String) (span : Span)
  /-- A comment is opened here and never closed; the span covers its opening. -/
  | unterminatedComment (span : Span)
deriving DecidableEq, Repr

namespace ScanError

/-- The place of the error. -/
def span : ScanError → Span
  | unrecognized _ span => span
  | unterminatedComment span => span

/-- The error in words. -/
def message : ScanError → String
  | unrecognized text _ => "unrecognized input `" ++ text ++ "`"
  | unterminatedComment _ => "unterminated comment"

/-- What stands for no answer at all. A closing tag ends beyond the largest offset, and
    the place that is left of its end lies inside a character, or reading leads from
    there to the same tag again and again. No input is refused for an empty text. -/
def lost : ScanError := .unrecognized "" .unknown

end ScanError

/-! ## Lexemes -/

/-- What stands at the start of the remaining code, with its length in characters. -/
inductive Lexeme
  | token (kind : TokenKind) (length : Nat)
  /-- White space or a comment. -/
  | trivia (length : Nat)
  | unrecognized (length : Nat)
  /-- A comment that is not closed; the length is that of its opening. -/
  | unterminatedComment (length : Nat)
deriving DecidableEq, Repr

namespace Lexeme

/-- The characters up to and with the mark that closes a block comment. -/
def commentEnd? : List Char → Option Nat
  | [] => none
  | c :: cs =>
    if ['*', '/'].isPrefixOf (c :: cs) then some 2 else (commentEnd? cs).map (1 + ·)

/-- The characters after an opening quote that never finds its closing one. A
    backslash at the very end is left out, as it takes no character along. -/
def unterminatedBody : List Char → Nat
  | [] => 0
  | c :: cs =>
    if c == '\\' then
      match cs with
      | [] => 0
      | _ :: cs => 2 + unterminatedBody cs
    else 1 + unterminatedBody cs

/-- The characters that an error reports where no rule matches: an unterminated
    quoted text, or one character. -/
def unmatched : List Char → Nat
  | [] => 0
  | c :: cs => if c == '\'' || c == '"' then 1 + unterminatedBody cs else 1

/-- The lexeme at the start of `cs`. -/
def ofCode (cs : List Char) : Lexeme :=
  match Rule.longest? cs with
  | none => unrecognized (unmatched cs)
  | some (rule, n) =>
    match rule with
    | .keyword k => token (.keyword k) n
    | .symbol s => token (.symbol s) n
    | .varName => token .varName n
    | .identifier => token .identifier n
    | .decimalInteger | .hexInteger | .octalInteger | .binaryInteger => token .integer n
    | .pointFloat | .leadingPointFloat | .exponentFloat => token .float n
    | .singleQuoted => token .singleQuoted n
    | .doubleQuoted => token .doubleQuoted n
    | .blank | .slashComment => trivia n
    | .hashComment => trivia (n + Rule.run (· != '\n') (cs.drop n))
    | .blockComment =>
      match commentEnd? (cs.drop n) with
      | some m => trivia (n + m)
      | none => unterminatedComment n

end Lexeme

/-! ## Plain text and code -/

/-- The mark at which code begins. -/
def openTag : List Char := ['<', '?', 'p', 'h', 'p']

/-- The characters before the first opening tag, or all of them without one. -/
def beforeTag : List Char → List Char
  | [] => []
  | c :: cs => if openTag.isPrefixOf (c :: cs) then [] else c :: beforeTag cs

/-- The number of characters of one line end directly after a closing tag. -/
def lineEndAfterTag (cs : List Char) : Nat :=
  if ['\r', '\n'].isPrefixOf cs then 2
  else if ['\n'].isPrefixOf cs then 1
  else 0

namespace Token

/-- The token of a kind that the characters `cs` at a byte offset of a source text
    form. It shows the text that its span covers, which is `cs` as long as the span
    holds its end. -/
def ofChars (source : String) (kind : TokenKind) (offset : Nat) (cs : List Char) : Token :=
  let span := Span.ofChars offset cs
  let text :=
    if span.stop = offset + Text.byteLength cs then String.ofList cs
    else (span.slice? source).getD ""
  ⟨kind, span, text⟩

/-- The tokens of the code `cs`, which starts at a byte offset, up to a closing tag
    or the end of the text. With a closing tag also the offset at which it ends, and
    what follows it. -/
def scanCode (source : String) (offset : Nat) (cs : List Char) :
    Except ScanError (List Token × Option (Nat × List Char)) :=
  match cs with
  | [] => .ok ([], none)
  | c :: rest => do
    match Lexeme.ofCode (c :: rest) with
    | .token kind n =>
      let text := (c :: rest).take n
      let stop := offset + Text.byteLength text
      if kind = .symbol .closeTag then
        return ([ofChars source kind offset text], some (stop, rest.drop (n - 1)))
      else
        let (tokens, tag?) ← scanCode source stop (rest.drop (n - 1))
        return (ofChars source kind offset text :: tokens, tag?)
    | .trivia n =>
      scanCode source (offset + Text.byteLength ((c :: rest).take n)) (rest.drop (n - 1))
    | .unrecognized n =>
      let text := (c :: rest).take n
      .error (.unrecognized (String.ofList text) (.ofChars offset text))
    | .unterminatedComment n =>
      .error (.unterminatedComment (.ofChars offset ((c :: rest).take n)))
termination_by cs.length
decreasing_by all_goals (simp only [List.length_drop, List.length_cons]; omega)

/-- The place at which plain text goes on after a closing tag that ends at an offset,
    before `rest`: past one line end. Where the tag ends is told by its span, so an
    end that the span does not hold is looked up from the start of the text. -/
def resume? (source : String) (stop : Nat) (rest : List Char) : Option (Nat × List Char) :=
  let place := Span.wrap stop
  let found? := if place = stop then some rest else Text.dropBytes? place source.toList
  found?.map fun cs => (place + lineEndAfterTag cs, cs.drop (lineEndAfterTag cs))

/-- The tokens of the text `cs`, which starts at a byte offset in plain text, without
    the end of the file. Each round goes on at another character of the text, so a
    scan of more rounds than characters comes to a place again and never ends. -/
def scanFrom (source : String) :
    (bound : List Char) → (offset : Nat) → (cs : List Char) → Except ScanError (List Token)
  | _, _, [] => .ok []
  | [], _, _ :: _ => .error .lost
  | _ :: bound, offset, c :: rest => do
    let html := beforeTag (c :: rest)
    let next := offset + Text.byteLength html + openTag.length
    let (code, tag?) ← scanCode source next (rest.drop (html.length + openTag.length - 1))
    let after ← match tag? with
      | none => .ok []
      | some (stop, rest) =>
        match resume? source stop rest with
        | some (offset, cs) => scanFrom source bound offset cs
        | none => .error .lost
    return if html.isEmpty then code ++ after
      else ofChars source .inlineHtml offset html :: (code ++ after)

/-- The tokens of a source text, ending with the end of the file. -/
def scan (source : String) : Except ScanError (List Token) := do
  let tokens ← scanFrom source source.toList 0 source.toList
  let stop := Span.wrap source.utf8ByteSize
  return tokens ++ [⟨.endOfFile, ⟨stop, stop⟩, ""⟩]

end Token

end PhpScript
