/-!
# Splitting text
-/

namespace PhpScript.Text

/-- The parts of a text between the occurrences of a separator. There is one part
    more than there are separators. -/
def split (separator : Char) : List Char → List (List Char)
  | [] => [[]]
  | c :: cs =>
    if c == separator then [] :: split separator cs
    else
      match split separator cs with
      | [] => [[c]]
      | part :: rest => (c :: part) :: rest

/-- The parts of a text between the occurrences of a separator. -/
def splitParts (separator : Char) (text : String) : List String :=
  (split separator text.toList).map String.ofList

end PhpScript.Text
