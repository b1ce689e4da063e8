import PhpScript.Files.Fault
import PhpScript.Node.Dump
import PhpScript.Parse.Program
import PhpScript.Script.Emit
import PhpScript.Text.LineMap

/-!
# Conversion

A source text, or the dump of a syntax tree, becomes one script. An error tells
which input it belongs to, and for a source text also the line and column it
points at, and the text of that line.
-/

namespace PhpScript

/-! ## Errors -/

/-- What an error says about its place in the source text; nothing when there is
    no source text or the place is not known. -/
structure Place where
  location : Option Location := none
  lineText : Option String := none
deriving DecidableEq, Repr

/-- The place of a span in a source text. -/
def Place.ofSpan (source : String) (span : Span) : Place :=
  if span.isUnknown then {}
  else
    let map := LineMap.ofText source
    let location := map.location source span.start
    ⟨some location, map.lineText? source location.line⟩

/-- Why a conversion failed. -/
inductive ConvertError
  | read (path : String) (fault : FileFault)
  | parse (file : String) (error : ParseError) (place : Place)
  | emit (file : String) (error : EmitError) (place : Place)
  | dump (file : String) (error : Dump.Error)
deriving DecidableEq, Repr

namespace ConvertError

/-- The input that the error belongs to; none if it could not be read. -/
def file? : ConvertError → Option String
  | read .. => none
  | parse file .. | emit file .. | dump file .. => some file

/-- What is known about the place of the error. -/
def place : ConvertError → Place
  | parse _ _ place | emit _ _ place => place
  | _ => {}

/-- The line and column of the error, when known. -/
def location? (e : ConvertError) : Option Location := e.place.location

/-- The line of the source text that the error points at, when known. -/
def lineText? (e : ConvertError) : Option String := e.place.lineText

/-- The span of the error in the source text, when known. -/
def span? (e : ConvertError) : Option Span :=
  let known (span : Span) := if span.isUnknown then none else some span
  match e with
  | read .. => none
  | parse _ error _ => known error.span
  | emit _ error _ => known error.span
  | dump _ error => known error.span

/-- The input and the place in it. -/
def origin? (e : ConvertError) : Option String :=
  e.file?.map fun file =>
    match e.location? with
    | some location => file ++ ":" ++ location.describe
    | none => file

/-- The error in words, without its input and place. -/
def summary : ConvertError → String
  | read path fault => "failed to read " ++ path ++ ": " ++ fault.message
  | parse _ error _ => "parse error: " ++ error.message
  | emit _ error _ => error.message
  | dump _ error => "invalid AST dump: " ++ error.message

/-- The error in words. -/
def message (e : ConvertError) : String :=
  match e.origin? with
  | some origin => origin ++ ": " ++ e.summary
  | none => e.summary

end ConvertError

/-! ## Inputs -/

namespace Convert

/-- The tree of a source text. The file name is used in errors only. -/
def parse (source file : String) : Except ConvertError (List Node) :=
  match Parse.source source with
  | .ok nodes => .ok nodes
  | .error error => .error (.parse file error (.ofSpan source error.span))

/-- The script of a source text. -/
def source (source file : String) : Except ConvertError String := do
  match Script.ofNodes (← parse source file) with
  | .ok text => return text
  | .error error => throw (.emit file error (.ofSpan source error.span))

/-- The script of the dump of a tree. There is no source text to place an error in. -/
def dump (json file : String) : Except ConvertError String :=
  match Dump.ofText json with
  | .ok nodes =>
    match Script.ofNodes nodes with
    | .ok text => .ok text
    | .error error => .error (.emit file error {})
  | .error error => .error (.dump file error)

end Convert

end PhpScript
