import PhpScript.Convert

/-!
# Reports

Conversion errors as a terminal shows them: the place, the message and, when the
source line is known, that line with the text at fault underlined.

    page.php:4:1 - error: unsupported node kind `Stmt_Echo`
        4   echo $total;
            ~~~~~~~~~~~~
-/

namespace PhpScript.Report

/-! ## Colors -/

/-- What switches all styles off. -/
def reset : List Char := ['\x1b', '[', '0', 'm']

/-- The text with a style switched on again after each place that switches all
    styles off. -/
def restyle (style : List Char) : List Char → List Char
  | [] => []
  | '\x1b' :: '[' :: '0' :: 'm' :: cs => reset ++ style ++ restyle style cs
  | c :: cs => c :: restyle style cs

/-- A text in the style with a terminal code, all of it. -/
def styled (color : Bool) (code text : String) : String :=
  if color then
    let style := ['\x1b', '['] ++ code.toList ++ ['m']
    String.ofList (style ++ restyle style text.toList ++ reset)
  else text

/-- The style of places. -/
def placeStyle : String := "36"

/-- The style of the word that begins a message. -/
def categoryStyle : String := "1;31"

/-- The style of underlines. -/
def underlineStyle : String := "31"

/-! ## The underline -/

/-- The number of columns that a character is shown in. -/
def width (c : Char) : Nat := if c == '\t' then 4 else 1

/-- Blanks below the first `skip` characters of a line, then marks below the
    characters that the next `bytes` bytes begin in. -/
def underlineBelow : (skip bytes : Nat) → List Char → List Char
  | _, _, [] => []
  | skip + 1, bytes, c :: cs => List.replicate (width c) ' ' ++ underlineBelow skip bytes cs
  | 0, bytes, c :: cs =>
    if bytes = 0 then []
    else List.replicate (width c) '~' ++ underlineBelow 0 (bytes - c.utf8Size) cs

/-- The underline of a span that begins at a column of a line; at least one mark. -/
def underline (line : String) (column bytes : Nat) : String :=
  let marks := underlineBelow (column - 1) bytes line.toList
  String.ofList (if marks.contains '~' then marks else marks ++ ['~'])

/-- A line with blanks in place of its tabs. -/
def withoutTabs (line : String) : String :=
  String.ofList (line.toList.flatMap fun c => if c == '\t' then List.replicate 4 ' ' else [c])

/-- A number, preceded by blanks up to three columns. -/
def lineNumber (n : Nat) : String :=
  let digits := Nat.toDigits 10 n
  String.ofList (List.replicate (3 - digits.length) ' ' ++ digits)

/-- The source line of an error with its underline, when they are known. -/
def snippet? (color : Bool) (e : ConvertError) : Option String := do
  let line ← e.lineText?
  let location ← e.location?
  let span ← e.span?
  let marks := underline line location.column span.length
  return "\n  " ++ lineNumber location.line ++ "   " ++ withoutTabs line ++ "\n        " ++
    styled color underlineStyle marks

/-! ## Errors -/

/-- One error. -/
def format (color : Bool) (e : ConvertError) : String :=
  let origin := match e.origin? with
    | some origin => styled color placeStyle origin ++ " - "
    | none => ""
  origin ++ styled color categoryStyle "error" ++ ": " ++ e.summary ++ (snippet? color e).getD ""

/-- Several errors, one after the other. -/
def render (color : Bool) (errors : List ConvertError) : String :=
  String.intercalate "\n" (errors.map (format color))

end PhpScript.Report
