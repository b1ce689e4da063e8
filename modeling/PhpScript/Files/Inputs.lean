import PhpScript.Files.Access

/-!
# Inputs and outputs

Which files a run reads, and which it writes. A directory stands for the files
under it with an extension, in order; a file stands for itself. No file is read
twice, and no two of them may be written to the same place.
-/

namespace PhpScript

/-- Why a run cannot begin, or cannot go on. -/
inductive RunError
  | inputNotFound (path : String)
  /-- Two inputs have the same output. -/
  | outputClash (first second output : String)
  | cannotCreate (path : String) (fault : FileFault)
  | cannotWrite (path : String) (fault : FileFault)
deriving DecidableEq, Repr

/-- The error in words. -/
def RunError.message : RunError → String
  | inputNotFound path => "input not found: " ++ path
  | outputClash first second output =>
    first ++ " and " ++ second ++ " would both be written to " ++ output
  | cannotCreate path fault =>
    "failed to create " ++ path ++ "\n\nCaused by:\n    " ++ fault.message
  | cannotWrite path fault =>
    "failed to write " ++ path ++ "\n\nCaused by:\n    " ++ fault.message

namespace Inputs

/-- Adds those of the files that are not in the list yet. -/
def addNew (files : List String) (more : List String) : List String :=
  more.foldl (fun files file => if files.any (Path.same file) then files else files ++ [file]) files

section

variable [Monad m] (access : FileAccess m) (extension : String)

/-- The files that an input stands for. -/
def expand (input : String) : m (Except RunError (List String)) := do
  if ← access.isDirectory input then
    let files ← access.filesUnder input
    return .ok (Path.sort (files.filter fun file => Path.extension? file == some extension))
  else if ← access.exists? input then
    return .ok [input]
  else
    return .error (.inputNotFound input)

/-- The files that inputs stand for, added to those before. -/
def collectFrom (files : List String) : List String → m (Except RunError (List String))
  | [] => return .ok files
  | input :: rest => do
    match ← expand access extension input with
    | .ok more => collectFrom (addNew files more) rest
    | .error error => return .error error

/-- The files that inputs stand for. -/
def collect (inputs : List String) : m (Except RunError (List String)) :=
  collectFrom access extension [] inputs

end

/-- The input, among those before, that an output belongs to. -/
def claimant? (output : String) (claimed : List (String × String)) : Option String :=
  (claimed.find? fun (_, other) => Path.same output other).map (·.1)

/-- The outputs of inputs, given the inputs before, each with its output. -/
def outputsFrom (outDir extension : String) (claimed : List (String × String)) :
    List String → Except RunError (List String)
  | [] => .ok []
  | input :: rest =>
    let output := Path.output outDir input extension
    match claimant? output claimed with
    | some first => .error (.outputClash first input output)
    | none => do
      return output :: (← outputsFrom outDir extension ((input, output) :: claimed) rest)

/-- The outputs of inputs, in their order. -/
def outputs (outDir extension : String) (inputs : List String) : Except RunError (List String) :=
  outputsFrom outDir extension [] inputs

end Inputs

end PhpScript
