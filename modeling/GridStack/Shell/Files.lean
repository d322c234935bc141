import GridStack.Shell.SystemError

/-!
# Files

The files that a command can reach from the folder it works in, and the answers of the system to a path.
A path is walked part by part: `.` stays, `..` goes up, and a name with something behind it has to be a
folder. Folders have no names here: the one worked in has no folders in it, and of those above it and of
the root nothing is known but what is written there.
-/

namespace GridStack

/-- The longest name, in bytes. -/
def maxName : Nat := 255

/-- The longest path, in bytes. -/
def maxPath : Nat := 4095

/-- A folder that a path can lead through. -/
inductive Folder
  /-- The folder that many levels above the one worked in, which is itself at level zero. -/
  | above (levels : Nat)
  /-- The folder that absolute paths begin at. -/
  | root
deriving DecidableEq, Inhabited

namespace Folder

/-- The folder one level up; the root is its own. -/
def parent : Folder → Folder
  | above levels => above (levels + 1)
  | root => root

end Folder

/-- A name in a folder, whether there is a file of that name or not. -/
structure Place where
  folder : Folder
  name : String
deriving DecidableEq, Inhabited

/-- The files that there are, each place at most once. -/
structure Files where
  entries : List (Place × List UInt8)
deriving DecidableEq, Inhabited

namespace Files

/-- The content of the file at a place. -/
def content? (files : Files) (place : Place) : Option (List UInt8) :=
  files.entries.lookup place

/-- The files with one replaced, or with one more. -/
def put (files : Files) (place : Place) (content : List UInt8) : Files :=
  ⟨(place, content) :: files.entries.filter (·.1 != place)⟩

/-- The files of the folder worked in; of two with one name the later one counts. -/
def ofList (named : List (String × List UInt8)) : Files :=
  named.foldl (fun files file => files.put ⟨.above 0, file.1⟩ file.2) ⟨[]⟩

/-- Why the walk ends at a name that is no folder. -/
def obstacle (files : Files) (place : Place) : SystemError :=
  if maxName < place.name.utf8ByteSize then .nameTooLong
  else if (files.content? place).isSome then .notDirectory
  else .noSuchFile

/-- Walks the parts of a path from a folder: none when it ends at a folder, a place when it ends at a
name. -/
def walk (files : Files) : Folder → List String → Except SystemError (Option Place)
  | _, [] => .ok none
  | folder, part :: rest =>
    if part = "." then files.walk folder rest
    else if part = ".." then files.walk folder.parent rest
    else if rest = [] then .ok (some ⟨folder, part⟩)
    else .error (files.obstacle ⟨folder, part⟩)

/-- The parts of a path. Slashes in a row count as one. -/
def parts (path : String) : List String :=
  (path.splitOn "/").filter (· != "")

/-- Walks a path from the folder that it begins at. -/
def resolve (files : Files) (path : String) : Except SystemError (Option Place) :=
  if path = "" then .error .noSuchFile
  else if maxPath < path.utf8ByteSize then .error .nameTooLong
  else files.walk (if path.startsWith "/" then .root else .above 0) (parts path)

/-- Reads the file at a path. With a slash behind it the path asks for a folder. -/
def read (files : Files) (path : String) : Except SystemError (List UInt8) := do
  match ← files.resolve path with
  | none => .error .isDirectory
  | some place =>
    if path.endsWith "/" then .error (files.obstacle place)
    else
      match files.content? place with
      | some content => .ok content
      | none => .error (files.obstacle place)

/-- Writes the file at a path, which is made if it is not there. With a slash behind it the path is refused
before its last name is looked at. -/
def write (files : Files) (path : String) (content : List UInt8) : Except SystemError Files := do
  match ← files.resolve path with
  | none => .error .isDirectory
  | some place =>
    if path.endsWith "/" then .error .isDirectory
    else if maxName < place.name.utf8ByteSize then .error .nameTooLong
    else .ok (files.put place content)

end Files

end GridStack
