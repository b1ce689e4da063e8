import PhpScript.Arguments
import PhpScript.Files.Inputs
import PhpScript.Json.Printer
import PhpScript.Node.Tree
import PhpScript.Report

/-!
# The command

A run of the program: it reads its arguments, collects its inputs, converts them
all, and then prints the outputs or writes them to a directory. Inputs that could
not be converted are reported at the end, and do not keep the others back.
-/

namespace PhpScript

/-- What a run leaves behind besides the files it wrote. -/
structure Outcome where
  code : Nat
  stdout : String := ""
  stderr : String := ""
deriving DecidableEq, Repr

namespace Command

/-- The name and the version of the program. -/
def versionText : String := "php2js 0.1.0\n"

/-- How the program is used. -/
def helpText : String :=
  "Translate a subset of PHP into JavaScript\n\n" ++
  "Usage: php2js [OPTIONS] <INPUT>...\n\n" ++
  "Arguments:\n" ++
  "  <INPUT>...  Input files, or directories to search for them\n\n" ++
  "Options:\n" ++
  "  -o, --out-dir <DIR>           Write `<stem>.js` for each input into this directory " ++
  "instead of printing to stdout\n" ++
  "      --ast-json                Treat inputs as nikic/php-parser JSON AST dumps " ++
  "(`php-parse --json-dump`)\n" ++
  "      --dump-ast                Print the parsed syntax tree as JSON instead of translating\n" ++
  "      --pretty-errors [<BOOL>]  Color error output. Defaults to on when stderr is a terminal " ++
  "[possible values: true, false]\n" ++
  "  -h, --help                    Print help\n" ++
  "  -V, --version                 Print version\n"

/-! ## Conversion of one input -/

/-- The syntax tree of a source text as indented JSON. -/
def treeText (source file : String) : Except ConvertError String := do
  let nodes ← Convert.parse source file
  return (Json.array (Node.toJsonList nodes)).write

/-- The output for the text of an input. -/
def convertText (args : Arguments) (text file : String) : Except ConvertError String :=
  if args.dumpAst then treeText text file
  else if args.astJson then Convert.dump text file
  else Convert.source text file

/-- The output for an input. -/
def convertFile [Monad m] (access : FileAccess m) (args : Arguments) (path : String) :
    m (Except ConvertError String) := do
  match ← access.readText path with
  | .ok text => return convertText args text path
  | .error fault => return .error (.read path fault)

/-! ## Delivery -/

/-- Documents one after the other, each ending its line, with an empty line
    between two of them. -/
def printed (documents : List String) : String :=
  String.intercalate "\n" (documents.map (· ++ "\n"))

/-- The errors with their number, as they are reported at the end. -/
def errorReport (color : Bool) (errors : List ConvertError) : String :=
  let plural := if errors.length = 1 then "" else "s"
  Report.render color errors ++ "\n\nFound " ++ toString errors.length ++ " error" ++ plural ++
    ".\n"

/-- The outputs among the results. -/
def successes (results : List (Except ConvertError String)) : List String :=
  results.filterMap fun
    | .ok text => some text
    | .error _ => none

/-- The errors among the results. -/
def failures (results : List (Except ConvertError String)) : List ConvertError :=
  results.filterMap fun
    | .ok _ => none
    | .error error => some error

/-- The outcome of a run that went through: it fails when an input did. -/
def finish (color : Bool) (stdout : String) (results : List (Except ConvertError String)) :
    Outcome :=
  match failures results with
  | [] => ⟨0, stdout, ""⟩
  | errors => ⟨1, stdout, errorReport color errors⟩

/-- The outcome of a run that was given up. -/
def abort (error : RunError) : Outcome := ⟨1, "", "Error: " ++ error.message ++ "\n"⟩

section

variable [Monad m] (access : FileAccess m)

/-- Writes each output that there is to its place. -/
def writeAll : List (String × Except ConvertError String) → m (Except RunError Unit)
  | [] => return .ok ()
  | (_, .error _) :: rest => writeAll rest
  | (path, .ok text) :: rest => do
    match ← access.writeText path (text ++ "\n") with
    | .ok () => writeAll rest
    | .error fault => return .error (.cannotWrite path fault)

/-- Writes the outputs to a directory, which is made if it is missing. -/
def writeTo (color : Bool) (outDir : String) (outputs : List String)
    (results : List (Except ConvertError String)) : m Outcome := do
  match ← access.makeDirectories outDir with
  | .error fault => return abort (.cannotCreate outDir fault)
  | .ok () =>
    match ← writeAll access (outputs.zip results) with
    | .error error => return abort error
    | .ok () => return finish color "" results

/-! ## The run -/

/-- Where the reports of a run go. -/
structure Screen where
  /-- Whether it is a terminal, which is shown colors unless the arguments say not to. -/
  isTerminal : Bool := false
  /-- Whether colors reach it at all. -/
  takesColors : Bool := false
deriving DecidableEq, Repr

/-- Whether a report is written in color. -/
def Screen.color (screen : Screen) (args : Arguments) : Bool :=
  screen.takesColors && args.prettyErrors.getD screen.isTerminal

/-- A run with arguments that have been read. -/
def runWith (screen : Screen) (args : Arguments) : m Outcome := do
  let color := screen.color args
  match ← Inputs.collect access args.inputExtension args.inputs with
  | .error error => return abort error
  | .ok files =>
    match args.outDir with
    | none =>
      let results ← files.mapM (convertFile access args)
      return finish color (printed (successes results)) results
    | some outDir =>
      match Inputs.outputs outDir args.outputExtension files with
      | .error error => return abort error
      | .ok outputs =>
        let results ← files.mapM (convertFile access args)
        writeTo access color outDir outputs results

/-- A run of the program. -/
def run (screen : Screen) (arguments : List String) : m (Except UsageStop Outcome) := do
  match Arguments.read arguments with
  | .ok args => return .ok (← runWith access screen args)
  | .error .version => return .ok ⟨0, versionText, ""⟩
  | .error .help => return .ok ⟨0, helpText, ""⟩
  | .error stop => return .error stop

end

end Command

end PhpScript
