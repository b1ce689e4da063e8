/-!
# Kinds of tokens

The vocabulary of the source language: its keywords, its punctuation and
operators, and the classes of names and literals. Each keyword and each symbol
has one spelling; keywords are recognised in any ASCII letter case.
-/

namespace PhpScript

/-! ## Keywords -/

/-- A reserved word. -/
inductive Keyword
  | abstractKw
  | arrayKw
  | classKw
  | declareKw
  | echoKw
  | elseKw
  | elseIfKw
  | finalKw
  | fnKw
  | functionKw
  | ifKw
  | namespaceKw
  | newKw
  | privateKw
  | protectedKw
  | publicKw
  | readonlyKw
  | returnKw
  | staticKw
  | useKw
  | varKw
deriving DecidableEq, Repr

namespace Keyword

/-- The spelling, in lower case. -/
def text : Keyword → String
  | abstractKw => "abstract"
  | arrayKw => "array"
  | classKw => "class"
  | declareKw => "declare"
  | echoKw => "echo"
  | elseKw => "else"
  | elseIfKw => "elseif"
  | finalKw => "final"
  | fnKw => "fn"
  | functionKw => "function"
  | ifKw => "if"
  | namespaceKw => "namespace"
  | newKw => "new"
  | privateKw => "private"
  | protectedKw => "protected"
  | publicKw => "public"
  | readonlyKw => "readonly"
  | returnKw => "return"
  | staticKw => "static"
  | useKw => "use"
  | varKw => "var"

/-- Every keyword. -/
def all : List Keyword :=
  [abstractKw, arrayKw, classKw, declareKw, echoKw, elseKw, elseIfKw, finalKw, fnKw, functionKw,
   ifKw, namespaceKw, newKw, privateKw, protectedKw, publicKw, readonlyKw, returnKw, staticKw,
   useKw, varKw]

/-- Whether the word may stand before a class member. -/
def isModifier : Keyword → Bool
  | abstractKw | finalKw | privateKw | protectedKw | publicKw | readonlyKw | staticKw | varKw =>
    true
  | _ => false

theorem mem_all (k : Keyword) : k ∈ all := by cases k <;> decide

end Keyword

/-! ## Symbols -/

/-- A punctuation mark or an operator. -/
inductive Symbol
  | openParen
  | closeParen
  | openBracket
  | closeBracket
  | openBrace
  | closeBrace
  | comma
  | semicolon
  | closeTag
  | attributeStart
  | arrow
  | nullsafeArrow
  | doubleArrow
  | doubleColon
  | backslash
  | question
  | colon
  | bar
  | ampersand
  | ellipsis
  | equals
  | plusEquals
  | minusEquals
  | asteriskEquals
  | slashEquals
  | dotEquals
  | dot
  | plus
  | minus
  | asterisk
  | slash
  | percent
  | equalsEquals
  | equalsEqualsEquals
  | exclamationEquals
  | exclamationEqualsEquals
  | lessThan
  | greaterThan
  | lessThanEquals
  | greaterThanEquals
  | ampersandAmpersand
  | barBar
  | exclamation
deriving DecidableEq, Repr

namespace Symbol

/-- The spelling. -/
def text : Symbol → String
  | openParen => "("
  | closeParen => ")"
  | openBracket => "["
  | closeBracket => "]"
  | openBrace => "\x7b"
  | closeBrace => "\x7d"
  | comma => ","
  | semicolon => ";"
  | closeTag => "?>"
  | attributeStart => "#["
  | arrow => "->"
  | nullsafeArrow => "?->"
  | doubleArrow => "=>"
  | doubleColon => "::"
  | backslash => "\\"
  | question => "?"
  | colon => ":"
  | bar => "|"
  | ampersand => "&"
  | ellipsis => "..."
  | equals => "="
  | plusEquals => "+="
  | minusEquals => "-="
  | asteriskEquals => "*="
  | slashEquals => "/="
  | dotEquals => ".="
  | dot => "."
  | plus => "+"
  | minus => "-"
  | asterisk => "*"
  | slash => "/"
  | percent => "%"
  | equalsEquals => "=="
  | equalsEqualsEquals => "==="
  | exclamationEquals => "!="
  | exclamationEqualsEquals => "!=="
  | lessThan => "<"
  | greaterThan => ">"
  | lessThanEquals => "<="
  | greaterThanEquals => ">="
  | ampersandAmpersand => "&&"
  | barBar => "||"
  | exclamation => "!"

/-- Every symbol. -/
def all : List Symbol :=
  [openParen, closeParen, openBracket, closeBracket, openBrace, closeBrace, comma, semicolon,
   closeTag, attributeStart, arrow, nullsafeArrow, doubleArrow, doubleColon, backslash, question,
   colon, bar, ampersand, ellipsis, equals, plusEquals, minusEquals, asteriskEquals, slashEquals,
   dotEquals, dot, plus, minus, asterisk, slash, percent, equalsEquals, equalsEqualsEquals,
   exclamationEquals, exclamationEqualsEquals, lessThan, greaterThan, lessThanEquals,
   greaterThanEquals, ampersandAmpersand, barBar, exclamation]

theorem mem_all (s : Symbol) : s ∈ all := by cases s <;> decide

end Symbol

/-! ## Tokens by kind -/

/-- What a token is. -/
inductive TokenKind
  | keyword (word : Keyword)
  | symbol (mark : Symbol)
  | varName
  | identifier
  | integer
  | float
  | singleQuoted
  | doubleQuoted
  /-- Text outside the code. -/
  | inlineHtml
  | endOfFile
deriving DecidableEq, Repr

namespace TokenKind

/-- Whether the token is a reserved word. -/
def isKeyword : TokenKind → Bool
  | keyword _ => true
  | _ => false

/-- Whether the token may name a member or a declaration; reserved words may. -/
def isIdentifierLike : TokenKind → Bool
  | keyword _ => true
  | identifier => true
  | _ => false

/-- Whether the token is a reserved word that may stand before a class member. -/
def isModifier : TokenKind → Bool
  | keyword k => k.isModifier
  | _ => false

/-- The kind in words, as error messages name it. -/
def describe : TokenKind → String
  | keyword k => "`" ++ k.text ++ "`"
  | symbol s => "`" ++ s.text ++ "`"
  | varName => "variable"
  | identifier => "identifier"
  | integer => "integer literal"
  | float => "float literal"
  | singleQuoted => "string literal"
  | doubleQuoted => "string literal"
  | inlineHtml => "inline HTML"
  | endOfFile => "end of file"

end TokenKind

end PhpScript
