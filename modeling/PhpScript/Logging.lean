import PhpScript.Text.Blank

/-!
# Layout of diagnostics
-/

namespace PhpScript

/-- How diagnostic lines are laid out. -/
inductive LogFormat
  | text
  /-- Indented below the file that is converted. -/
  | tree
deriving DecidableEq, Repr

/-- The layout that a setting names: anything but `tree`, in any letter case and
    with blanks around it, is plain text. -/
def LogFormat.ofSetting (setting : String) : LogFormat :=
  if (Text.trim setting).toList.map Char.toLower == "tree".toList then tree else text

end PhpScript
