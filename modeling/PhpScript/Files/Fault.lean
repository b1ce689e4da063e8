/-!
# Failures of file access
-/

namespace PhpScript

/-- Why a file or a directory could not be read, written or made. -/
inductive FileFault
  | notFound
  | alreadyExists
  | notADirectory
  | isADirectory
  /-- A path, or a name in it, takes more bytes than a path or a name may. -/
  | nameTooLong
  /-- A path holds the character that ends a text for the operating system. -/
  | nulInPath
  /-- The bytes of the file are no text. -/
  | notText
  /-- Any other failure, by its number and the words for it. -/
  | system (number : Nat) (words : String)
deriving DecidableEq, Repr

/-- The failure in words, with the number that the operating system has for it. -/
def FileFault.message : FileFault → String
  | notFound => "No such file or directory (os error 2)"
  | alreadyExists => "File exists (os error 17)"
  | notADirectory => "Not a directory (os error 20)"
  | isADirectory => "Is a directory (os error 21)"
  | nameTooLong => "File name too long (os error 36)"
  | nulInPath => "file name contained an unexpected NUL byte"
  | notText => "stream did not contain valid UTF-8"
  | system number words => s!"{words} (os error {number})"

end PhpScript
