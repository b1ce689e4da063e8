/-!
# Command-line arguments

The arguments of the program: options, written `--name value`, `--name=value`,
`-o value`, `-ovalue` or `-o=value`, and inputs. An argument `--` makes all that
follow it inputs.

What an option or a run of inputs was given is checked when it is complete, that
is when the next option, or an input after an option, or the end is reached. An
option that is not known, or a flag with a value, is refused at once.
-/

namespace PhpScript

/-- What the command line asks for. -/
structure Arguments where
  /-- Where to write the outputs; they are printed without it. -/
  outDir : Option String := none
  /-- Whether the inputs are dumps of syntax trees. -/
  astJson : Bool := false
  /-- Whether to give the syntax trees and not the scripts. -/
  dumpAst : Bool := false
  /-- Whether to show errors in color, if it was said. -/
  prettyErrors : Option Bool := none
  inputs : List String := []
deriving DecidableEq, Repr

/-- Why the command line asks for no run. -/
inductive UsageStop
  | help
  | version
  | unknownOption
  | unexpectedValue
  | invalidValue
  | conflict
  | missingInputs
deriving DecidableEq, Repr

namespace Arguments

/-- The extension of the files that are looked for in a directory. -/
def inputExtension (a : Arguments) : String := if a.astJson then "json" else "php"

/-- The extension of the files that are written. -/
def outputExtension (a : Arguments) : String := if a.dumpAst then "json" else "js"

/-! ## Options -/

/-- An option. -/
inductive Switch
  | outDir
  | astJson
  | dumpAst
  | prettyErrors
  | help
  | version
deriving DecidableEq, Repr

/-- The option with a long name. -/
def Switch.ofLong? (name : String) : Option Switch :=
  if name == "out-dir" || name == "outDir" then some outDir
  else if name == "ast-json" then some astJson
  else if name == "dump-ast" then some dumpAst
  else if name == "pretty-errors" || name == "pretty" then some prettyErrors
  else if name == "help" then some help
  else if name == "version" then some version
  else none

/-- The option with a short name. -/
def Switch.ofShort? (name : Char) : Option Switch :=
  if name == 'o' then some outDir
  else if name == 'h' then some help
  else if name == 'V' then some version
  else none

/-- Whether an option can have a value. -/
def Switch.takesValue : Switch → Bool
  | outDir | prettyErrors => true
  | _ => false

/-! ## Values -/

/-- What has been read and not yet checked. -/
inductive Pending
  | nothing
  /-- An option that can have a value, and its value as far as it has come. -/
  | value (switch : Switch) (text : Option String)
  | inputs (paths : List String)
deriving DecidableEq, Repr

/-- The truth value that a text spells. -/
def readBool? (text : String) : Option Bool :=
  if text == "true" then some true
  else if text == "false" then some false
  else none

/-- Sets an option to a value, or switches it on. None may be given twice. -/
def apply (a : Arguments) (switch : Switch) (value : Option String) :
    Except UsageStop Arguments :=
  match switch with
  | .outDir =>
    match value with
    | none => .error .invalidValue
    | some path =>
      if a.outDir.isSome then .error .conflict
      else if path == "" then .error .invalidValue
      else .ok { a with outDir := some path }
  | .prettyErrors =>
    if a.prettyErrors.isSome then .error .conflict
    else
      match readBool? (value.getD "true") with
      | some pretty => .ok { a with prettyErrors := some pretty }
      | none => .error .invalidValue
  | .astJson => if a.astJson then .error .conflict else .ok { a with astJson := true }
  | .dumpAst => if a.dumpAst then .error .conflict else .ok { a with dumpAst := true }
  | .help => .error .help
  | .version => .error .version

/-- Checks what is pending and takes it over. -/
def settle (a : Arguments) : Pending → Except UsageStop Arguments
  | .nothing => .ok a
  | .value switch text => a.apply switch text
  | .inputs paths =>
    if paths.contains "" then .error .invalidValue else .ok { a with inputs := a.inputs ++ paths }

/-- The arguments read so far, with what is pending. -/
structure Reading where
  args : Arguments := {}
  pending : Pending := .nothing

namespace Reading

/-- An option with the value that is attached to it. -/
def option (r : Reading) (switch : Switch) (attached : Option String) :
    Except UsageStop Reading := do
  if !switch.takesValue && attached.isSome then throw .unexpectedValue
  let args ← r.args.settle r.pending
  if switch.takesValue && attached.isNone then return ⟨args, .value switch none⟩
  else return ⟨← args.apply switch attached, .nothing⟩

/-- An input. -/
def input (r : Reading) (path : String) : Except UsageStop Reading :=
  match r.pending with
  | .inputs paths => .ok { r with pending := .inputs (paths ++ [path]) }
  | pending => do return ⟨← r.args.settle pending, .inputs [path]⟩

/-- A text that is no option: the value that an option waits for, or an input. -/
def value (r : Reading) (text : String) : Except UsageStop Reading :=
  match r.pending with
  | .value switch none => .ok { r with pending := .value switch (some text) }
  | _ => r.input text

/-- Options by their long name, with the value after an equals sign. -/
def long (r : Reading) (body : List Char) : Except UsageStop Reading :=
  let name := String.ofList (body.takeWhile (· != '='))
  let attached := match body.dropWhile (· != '=') with
    | [] => none
    | _ :: value => some (String.ofList value)
  match Switch.ofLong? name with
  | some switch => r.option switch attached
  | none => .error .unknownOption

/-- The value that follows the letter of an option: an equals sign before it does
    not count. -/
def attachedShort : List Char → Option String
  | [] => none
  | '=' :: value => some (String.ofList value)
  | value => some (String.ofList value)

/-- Options by their letters. The letters after an option with a value are its
    value. -/
def short (r : Reading) : List Char → Except UsageStop Reading
  | [] => .ok r
  | letter :: rest =>
    match Switch.ofShort? letter with
    | none => .error .unknownOption
    | some switch =>
      if switch.takesValue then r.option switch (attachedShort rest)
      else do short (← r.option switch none) rest

/-- Reads arguments one after the other. -/
def all (r : Reading) : List String → Except UsageStop Reading
  | [] => .ok r
  | argument :: rest =>
    match argument.toList with
    | ['-', '-'] => rest.foldlM input r
    | '-' :: '-' :: body => do all (← r.long body) rest
    | '-' :: letter :: letters => do all (← r.short (letter :: letters)) rest
    | _ => do all (← r.value argument) rest

end Reading

/-- Reads the command line. -/
def read (arguments : List String) : Except UsageStop Arguments := do
  let reading ← Reading.all {} arguments
  let args ← reading.args.settle reading.pending
  if args.dumpAst && args.astJson then throw .conflict
  if args.inputs.isEmpty then throw .missingInputs
  return args

end Arguments

end PhpScript
