import PhpScript.Files.Path

/-!
# Folders

A tree of files held in memory. A place in it is given by the names that lead
there, one inside the other.

* `Entry.get?` and `Entry.set` look at a place and change it;
* `Entry.filesIn` lists the files by their paths.
-/

namespace PhpScript

/-- A file or a folder. -/
inductive Entry
  | file (bytes : List UInt8)
  | folder (entries : List (String × Entry))
deriving Inhabited

namespace Entry

/-- The entry of a folder with a name. -/
def find? (name : String) : List (String × Entry) → Option Entry
  | [] => none
  | (key, entry) :: rest => if key == name then some entry else find? name rest

/-- Sets the entry of a folder with a name. -/
def insert (name : String) (entry : Entry) : List (String × Entry) → List (String × Entry)
  | [] => [(name, entry)]
  | (key, old) :: rest =>
    if key == name then (key, entry) :: rest else (key, old) :: insert name entry rest

/-- The entry that names lead to, one inside the other. -/
def get? (entry : Entry) : List String → Option Entry
  | [] => some entry
  | name :: names =>
    match entry with
    | file _ => none
    | folder entries => (find? name entries).bind (·.get? names)

/-- Sets the entry that names lead to. Folders on the way that are missing are made. -/
def set (entry new : Entry) : List String → Entry
  | [] => new
  | name :: names =>
    let entries := match entry with
      | file _ => []
      | folder entries => entries
    folder (insert name (((find? name entries).getD (folder [])).set new names) entries)

/-- Whether this is a folder. -/
def isFolder : Entry → Bool
  | file _ => false
  | folder _ => true

/-! ## Files by path -/

mutual

/-- The paths of the files in an entry with a path. A folder is not looked into
    when its path is too long to reach it by. -/
def filesIn (path : String) : Entry → List String
  | file _ => [path]
  | folder entries => if Path.isTooLong path then [] else filesInAll path entries

/-- The paths of the files in the entries of a folder with a path. -/
def filesInAll (path : String) : List (String × Entry) → List String
  | [] => []
  | (name, entry) :: rest => filesIn (Path.join path name) entry ++ filesInAll path rest

end

end Entry

end PhpScript
