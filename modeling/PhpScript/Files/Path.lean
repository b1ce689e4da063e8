import PhpScript.Text.Split

/-!
# Paths

A path is kept as the text it was given by. Paths are compared, and sorted, by
their components, where doubled slashes, a slash at the end and a dot inside the
path do not count, but a dot at its beginning does.
-/

namespace PhpScript

/-- A component of a path. -/
inductive Component
  /-- The slash at the start of an absolute path. -/
  | root
  /-- The dot at the start of a relative path. -/
  | here
  | up
  | name (text : String)
deriving DecidableEq, Repr

/-- Which of two components comes first: those with a meaning of their own
    before names, and names by their text. -/
def Component.compare : Component → Component → Ordering
  | name a, name b => Ord.compare a b
  | a, b => Ord.compare (rank a) (rank b)
where
  rank : Component → Nat
    | root => 0
    | here => 1
    | up => 2
    | name _ => 3

namespace Path

/-- The number of bytes that a path may take. -/
def maxBytes : Nat := 4095

/-- The number of bytes that a name in a path may take. -/
def maxNameBytes : Nat := 255

/-- Whether a text takes more bytes than a path may. -/
def isTooLong (path : String) : Bool := maxBytes < path.utf8ByteSize

/-- Whether a segment of a path takes more bytes than a name may. -/
def isNameTooLong (segment : String) : Bool := maxNameBytes < segment.utf8ByteSize

/-- The component that one segment between slashes stands for, if it counts. -/
def component? (segment : String) : Option Component :=
  if segment == "" || segment == "." then none
  else if segment == ".." then some .up
  else some (.name segment)

/-- The components of a path. -/
def components (path : String) : List Component :=
  let segments := Text.splitParts '/' path
  let first := match segments with
    | "" :: _ :: _ => [.root]
    | "." :: _ => [.here]
    | _ => []
  first ++ segments.filterMap component?

/-- Whether two paths have the same components. -/
def same (p q : String) : Bool := components p == components q

/-- Which of two lists of components comes first. -/
def compareAll : List Component → List Component → Ordering
  | [], [] => .eq
  | [], _ :: _ => .lt
  | _ :: _, [] => .gt
  | a :: as, b :: bs => (a.compare b).then (compareAll as bs)

/-- Paths in order, by their components. -/
def sort (paths : List String) : List String :=
  paths.mergeSort fun p q => compareAll (components p) (components q) != .gt

/-- The last component, when it is a name. -/
def fileName? (path : String) : Option String :=
  match (components path).getLast? with
  | some (.name text) => some text
  | _ => none

/-- The part before the last dot of a file name and the part after it. A dot at
    the very beginning does not count. -/
def splitName (fileName : String) : String × Option String :=
  let cs := fileName.toList.reverse
  match cs.dropWhile (· != '.') with
  | [] | [_] => (fileName, none)
  | _ :: before =>
    (String.ofList before.reverse, some (String.ofList (cs.takeWhile (· != '.')).reverse))

/-- The file name without its extension. -/
def stem? (path : String) : Option String := (fileName? path).map fun name => (splitName name).1

/-- The extension of the file name. -/
def extension? (path : String) : Option String :=
  (fileName? path).bind fun name => (splitName name).2

/-- The path of a name in a directory. -/
def join (directory name : String) : String :=
  if directory == "" then name
  else if directory.toList.getLast? == some '/' then directory ++ name
  else directory ++ "/" ++ name

/-- The text of a list of components. -/
def ofComponents (components : List Component) : String :=
  let text : Component → String
    | .root => ""
    | .here => "."
    | .up => ".."
    | .name text => text
  match components with
  | [.root] => "/"
  | components => String.intercalate "/" (components.map text)

/-- The directories that a path lies in, from the nearest on, without the working
    directory itself. -/
def ancestors (path : String) : List String :=
  let components := components path
  (List.range components.length).reverse.filterMap fun n =>
    if n = 0 then none else some (ofComponents (components.take n))

/-- Where the output for an input goes: the input's stem with an extension, in
    the output directory. -/
def output (outDir input extension : String) : String :=
  join outDir ((stem? input).getD "out" ++ "." ++ extension)

end Path

end PhpScript
