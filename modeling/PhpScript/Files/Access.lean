import PhpScript.Files.Disk

/-!
# File access

The operations on files that a run of the program needs, in any monad: on the
disk, or on a `Disk` in memory (`FileAccess.inMemory`).
-/

namespace PhpScript

/-- The operations on files that a run needs. -/
structure FileAccess (m : Type → Type) where
  /-- Whether a path stands for a directory. -/
  isDirectory : String → m Bool
  /-- Whether a path stands for anything. -/
  exists? : String → m Bool
  /-- The paths of all files under a directory, in any order. -/
  filesUnder : String → m (List String)
  /-- The text of a file. -/
  readText : String → m (Except FileFault String)
  /-- Makes a directory, in one that has to be there. -/
  makeDirectory : String → m (Except FileFault Unit)
  /-- Writes a file, in a directory that has to be there. -/
  writeText : String → String → m (Except FileFault Unit)

namespace FileAccess

section

variable [Monad m] (access : FileAccess m)

/-- Makes a directory, unless there is one already. -/
def ensureDirectory (path : String) : m (Except FileFault Unit) := do
  match ← access.makeDirectory path with
  | .ok () => return .ok ()
  | .error fault => if ← access.isDirectory path then return .ok () else return .error fault

/-- Makes a directory, unless there is one already, and before it those of the
    given ones around it that are missing, which are listed from the nearest on. -/
def ensureWithin (path : String) : (around : List String) → m (Except FileFault Unit)
  | [] => access.ensureDirectory path
  | parent :: around => do
    match ← access.ensureDirectory path with
    | .error .notFound =>
      match ← ensureWithin parent around with
      | .ok () => access.ensureDirectory path
      | .error fault => return .error fault
    | result => return result

/-- Makes a directory, unless there is one already, and those around it that are
    missing. -/
def makeDirectories (path : String) : m (Except FileFault Unit) :=
  access.ensureWithin path (Path.ancestors path)

end

/-- Keeps a changed disk, or the old one when the change failed. -/
def update (change : Disk → Except FileFault Disk) : StateM Disk (Except FileFault Unit) := do
  match change (← get) with
  | .ok disk =>
    set disk
    return .ok ()
  | .error fault => return .error fault

/-- Access to a disk in memory. -/
def inMemory : FileAccess (StateM Disk) where
  isDirectory path := return (← get).isFolderAt path
  exists? path := return (← get).existsAt path
  filesUnder path := return (← get).filesUnder path
  readText path := return (← get).readText path
  makeDirectory path := update (·.makeFolder path)
  writeText path text := update (·.writeFile path (Utf8.encode text.toList))

end FileAccess

end PhpScript
