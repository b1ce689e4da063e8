import PhpScript.Command

/-!
# The program

The command line: access to the disk, and the environment of a run.
-/

namespace PhpScript

/-- The failure that an error of the system stands for. -/
def FileFault.ofError (error : IO.Error) : FileFault :=
  match error with
  | .noFileOrDirectory _ _ _ => .notFound
  | .alreadyExists _ _ _ => .alreadyExists
  | .inappropriateType _ code words | .resourceBusy code words
  | .resourceVanished code words | .unsupportedOperation code words
  | .hardwareFault code words | .unsatisfiedConstraints code words
  | .illegalOperation code words | .protocolError code words | .timeExpired code words
  | .interrupted _ code words | .invalidArgument _ code words
  | .permissionDenied _ code words | .resourceExhausted _ code words
  | .noSuchThing _ code words | .otherError code words =>
    if code = 20 then .notADirectory
    else if code = 21 then .isADirectory
    else if code = 36 then .nameTooLong
    else .system code.toNat words
  | .unexpectedEof | .userError _ => .system 0 error.toString

/-- The result of an action, or its failure. -/
def attempt (action : IO α) : IO (Except FileFault α) := do
  try return .ok (← action)
  catch error => return .error (.ofError error)

/-- The paths of all files under a directory. -/
partial def filesOnDisk (directory : String) : IO (List String) := do
  let mut files := []
  for entry in ← ((← IO.currentDir) / directory).readDir do
    let path := Path.join directory entry.fileName
    let kind := (← entry.path.metadata).type
    if kind matches .dir then files := files ++ (← filesOnDisk path)
    else if kind matches .file then files := files ++ [path]
  return files

/-- Access to the disk. -/
def FileAccess.onDisk : FileAccess IO where
  isDirectory path := do
    if path == "" then return false else ((← IO.currentDir) / path).isDir
  exists? path := do
    if path == "" then return false else ((← IO.currentDir) / path).pathExists
  filesUnder path := do
    match ← attempt (filesOnDisk path) with
    | .ok files => return files
    | .error _ => return []
  readText path := do
    match ← attempt (IO.FS.readBinFile path) with
    | .ok bytes =>
      match Utf8.decode? bytes.toList with
      | some text => return .ok text
      | none => return .error .notText
    | .error fault => return .error fault
  makeDirectory path := attempt (IO.FS.createDir path)
  writeText path text := attempt (IO.FS.writeFile path text)

/-- What a variable of the environment says, when it is set: zero is no. -/
def setting? (name : String) : IO (Option Bool) := do
  return (← IO.getEnv name).map (· != "0")

/-- Where the reports of this run go. Colors can be forced, forbidden, or left to
    the terminal. -/
def screen : IO Command.Screen := do
  let isTerminal ← (← IO.getStderr).isTty
  let forced := (← setting? "CLICOLOR_FORCE").getD false
  let allowed := (← setting? "CLICOLOR").getD true && (← setting? "NO_COLOR").isNone
  let takesColors := forced || (allowed && (← (← IO.getStdout).isTty))
  return { isTerminal, takesColors }

end PhpScript

open PhpScript in
/-- Runs the program on the arguments of the command line. -/
def main (arguments : List String) : IO UInt32 := do
  match ← Command.run FileAccess.onDisk (← screen) arguments with
  | .ok outcome =>
    (← IO.getStdout).putStr outcome.stdout
    (← IO.getStderr).putStr outcome.stderr
    return UInt32.ofNat outcome.code
  | .error _ =>
    (← IO.getStderr).putStr Command.helpText
    return 2
