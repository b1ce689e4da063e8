import PhpScript.Files.Fault
import PhpScript.Files.Folder
import PhpScript.Text.Utf8

/-!
# Disks

A tree of files with a working directory, and the operations of a file system on
it. A path is resolved segment by segment, from the root of the tree if it begins
with a slash and from the working directory otherwise:

* what a segment is looked up in has to be a folder;
* a segment `..` leads to the folder around, and at the root stays there;
* a name may take `Path.maxNameBytes`, and the whole path `Path.maxBytes`.

The first segment that cannot be followed decides how resolving fails.
-/

namespace PhpScript

/-- A tree of files with a working directory. -/
structure Disk where
  root : Entry
  /-- The names that lead from the root to the working directory. -/
  here : List String := []

namespace Disk

/-! ## Resolving paths -/

/-- The names that lead from `root` to what segments stand for, starting at the
    place with the reversed names `place`. -/
def walk (root : Entry) (place : List String) : List String → Except FileFault (List String)
  | [] => .ok place.reverse
  | segment :: rest =>
    match root.get? place.reverse with
    | some (.folder entries) =>
      if segment == "" || segment == "." then walk root place rest
      else if segment == ".." then walk root place.tail rest
      else if Path.isNameTooLong segment then .error .nameTooLong
      else if (Entry.find? segment entries).isSome then walk root (segment :: place) rest
      else .error .notFound
    | _ => .error .notADirectory

/-- Refuses a text that can be no path. -/
def checkPath (path : String) : Except FileFault Unit :=
  if path.toList.contains '\x00' then .error .nulInPath
  else if path == "" then .error .notFound
  else if Path.isTooLong path then .error .nameTooLong
  else .ok ()

/-- The reversed names of the place that a path starts at. -/
def startOf (disk : Disk) (path : String) : List String :=
  if path.toList.head? == some '/' then [] else disk.here.reverse

/-- The names that lead from the root to what a path stands for. -/
def resolve (disk : Disk) (path : String) : Except FileFault (List String) := do
  checkPath path
  walk disk.root (disk.startOf path) (Text.splitParts '/' path)

/-- What a path stands for. -/
def lookup (disk : Disk) (path : String) : Except FileFault Entry := do
  match disk.root.get? (← disk.resolve path) with
  | some entry => return entry
  | none => throw .notFound

/-- Whether a path stands for a folder. -/
def isFolderAt (disk : Disk) (path : String) : Bool :=
  match disk.lookup path with
  | .ok entry => entry.isFolder
  | .error _ => false

/-- Whether a path stands for anything. -/
def existsAt (disk : Disk) (path : String) : Bool := (disk.lookup path).isOk

/-! ## Reading -/

/-- The text of a file. -/
def readText (disk : Disk) (path : String) : Except FileFault String := do
  match ← disk.lookup path with
  | .folder _ => throw .isADirectory
  | .file bytes =>
    match Utf8.decode? bytes with
    | some text => return text
    | none => throw .notText

/-- The paths of all files under a path. -/
def filesUnder (disk : Disk) (path : String) : List String :=
  match disk.lookup path with
  | .ok entry => entry.filesIn path
  | .error _ => []

/-! ## Writing -/

/-- The segments of a path before the last, and the last. Slashes at the end do
    not count, and a path of slashes ends where it is. -/
def splitLast (path : String) : List String × String :=
  match (Text.splitParts '/' path).reverse.dropWhile (· == "") with
  | [] => ([], ".")
  | last :: before => (before.reverse, last)

/-- The names that lead to the folder that a path lies in, and its last segment. -/
def parentOf (disk : Disk) (path : String) : Except FileFault (List String × String) := do
  checkPath path
  let (before, last) := splitLast path
  let names ← walk disk.root (disk.startOf path) before
  match disk.root.get? names with
  | some (.folder _) => return (names, last)
  | _ => throw .notADirectory

/-- Whether a segment stands for a folder that is there in any case. -/
def isFixed (segment : String) : Bool := segment == "." || segment == ".."

/-- Makes a folder, in a folder that has to be there. -/
def makeFolder (disk : Disk) (path : String) : Except FileFault Disk := do
  let (names, last) ← disk.parentOf path
  if isFixed last then throw .alreadyExists
  if Path.isNameTooLong last then throw .nameTooLong
  if (disk.root.get? (names ++ [last])).isSome then throw .alreadyExists
  return { disk with root := disk.root.set (.folder []) (names ++ [last]) }

/-- Writes a file, in a folder that has to be there. -/
def writeFile (disk : Disk) (path : String) (bytes : List UInt8) : Except FileFault Disk := do
  let (names, last) ← disk.parentOf path
  if isFixed last then throw .isADirectory
  if Path.isNameTooLong last then throw .nameTooLong
  if (disk.root.get? (names ++ [last])).any Entry.isFolder then throw .isADirectory
  return { disk with root := disk.root.set (.file bytes) (names ++ [last]) }

end Disk

end PhpScript
