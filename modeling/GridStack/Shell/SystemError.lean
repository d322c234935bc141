/-!
# Errors of the system

The errors that requests for files end in, with the numbers and the descriptions that the system has for
them.
-/

namespace GridStack

/-- Why the system refuses to open a file. -/
structure SystemError where
  code : Nat
  description : String
deriving DecidableEq, Inhabited

namespace SystemError

/-- The text of an error, with its number. -/
def message (error : SystemError) : String :=
  error.description ++ " (os error " ++ toString error.code ++ ")"

/-- Nothing has that name. -/
def noSuchFile : SystemError := ⟨2, "No such file or directory"⟩

/-- A path goes on behind a file. -/
def notDirectory : SystemError := ⟨20, "Not a directory"⟩

/-- A directory is named where a file is needed. -/
def isDirectory : SystemError := ⟨21, "Is a directory"⟩

/-- A name is longer than names may be. -/
def nameTooLong : SystemError := ⟨36, "File name too long"⟩

/-- The errors that opening, reading and writing files can end in. -/
def known : List SystemError := [
  noSuchFile, ⟨5, "Input/output error"⟩, ⟨13, "Permission denied"⟩, notDirectory, isDirectory,
  ⟨22, "Invalid argument"⟩, ⟨24, "Too many open files"⟩, ⟨26, "Text file busy"⟩,
  ⟨27, "File too large"⟩, ⟨28, "No space left on device"⟩, ⟨30, "Read-only file system"⟩,
  nameTooLong, ⟨40, "Too many levels of symbolic links"⟩]

/-- The error of a number, which may come with its sign reversed in 32 bits. A number that is not known
keeps the description it came with. -/
def ofCode (code : UInt32) (description : String) : SystemError :=
  let number := if code < 0x80000000 then code.toNat else (-code).toNat
  match known.find? (·.code == number) with
  | some error => error
  | none => ⟨number, description⟩

end SystemError

end GridStack
