import GridStack.Link
import GridStack.Image.Listing
import GridStack.Shell.Arguments
import GridStack.Shell.Files
import GridStack.Wire.Image
import GridStack.Wire.Program

/-!
# Sessions

What the command does, as a tree of the requests that it makes of the system: it reads at most one file,
then writes at most one, and ends with a status and two texts. The tree can be run on files that are held
as values, and it is what the command runs on the system.
-/

namespace GridStack

/-- The requests of a command, each with what follows every answer. Texts are printed at the exit, and there is
no answer to that: it is assumed that printing does not fail. -/
inductive Session
  | exit (status : UInt32) (stdout stderr : String)
  | read (path : String) (next : Except SystemError (List UInt8) → Session)
  | write (path : String) (content : List UInt8) (next : Option SystemError → Session)

/-- What a command leaves behind. -/
structure Outcome where
  status : UInt32
  stdout : String
  stderr : String
  files : Files
deriving DecidableEq

namespace Session

/-- Ends with a status of failure and a line of explanation behind what was reported before. -/
def failure (report line : String) : Session :=
  .exit 1 "" (report ++ line ++ "\n")

/-- Runs a session on files. A refused write leaves them as they are. -/
def runOn (files : Files) : Session → Outcome
  | .exit status stdout stderr => ⟨status, stdout, stderr, files⟩
  | .read path next => (next (files.read path)).runOn files
  | .write path content next =>
    match files.write path content with
    | .ok changed => (next none).runOn changed
    | .error error => (next (some error)).runOn files

end Session

namespace Shell

/-- The choices made by flags. -/
structure Settings where
  options : Options
  listing : Bool
  verbose : Bool
  image : Option String

/-- The report on the functions of a program. -/
def functionReport (program : Program) : String :=
  "compiling " ++ toString program.functions.length ++ " function(s)\n"
    ++ String.join (program.functions.map fun decl => "  " ++ decl.text ++ "\n")

/-- The lines on symbols: each begins at its entry and ends where the next one begins. -/
def symbolLines (length : Nat) : List Symbol → List String
  | [] => []
  | s :: rest =>
    let finish := match rest with
      | [] => length
      | next :: _ => next.entry.toNat
    ("  " ++ s.name ++ " @ " ++ toString s.entry.toNat ++ " ("
      ++ toString (finish - s.entry.toNat) ++ " instructions)\n") :: symbolLines length rest

/-- The report on an image. -/
def imageReport (image : Image) : String :=
  "linked " ++ toString image.code.length ++ " instruction(s)\n"
    ++ String.join (symbolLines image.code.length image.symbols)

/-- Compiles a program, writes its image if that is asked for, and shows its code. -/
def compile (settings : Settings) (program : Program) : Session :=
  let before := if settings.verbose then functionReport program else ""
  match program.link settings.options with
  | .error error => .failure before error.diagnostic.message
  | .ok image =>
    let report := if settings.verbose then before ++ imageReport image else before
    let code := if settings.listing then image.listing else image.text
    match settings.image with
    | none => .exit 0 code report
    | some path =>
      .write path image.toBytes fun
        | none => .exit 0 code report
        | some error =>
          .failure report ("Failed to write '" ++ path ++ "': " ++ error.message)

/-- Reads a program from a file and compiles it. -/
def compileFile (settings : Settings) (path : String) : Session :=
  .read path fun
    | .error error => .failure "" ("Failed to read '" ++ path ++ "': " ++ error.message)
    | .ok content =>
      match Program.ofBytes content with
      | .error error => .failure "" ("Failed to decode '" ++ path ++ "': " ++ error.message)
      | .ok program => compile settings program

/-- Compiles a demonstration program. -/
def compileDemo (settings : Settings) (name : String) : Session :=
  match Demo.byName? name with
  | some program => compile settings program
  | none =>
    .failure "" ("Unknown demo '" ++ name ++ "', expected one of: "
      ++ String.intercalate ", " Demo.names)

/-- A flag that has no value. -/
def missingValue (flag : String) : Session :=
  .failure "" ("Error: " ++ flag ++ " expects a value")

/-- What the command does with its arguments. The name that the command is started by is not among them, and
it is assumed to be none of the flags. -/
def session (args : List String) : Session :=
  if args = [] ∨ "--help" ∈ args ∨ "-h" ∈ args then
    .exit 0 usage ""
  else
    match flagValue imageFlag args with
    | .error flag => missingValue flag
    | .ok image =>
      match flagValue demoFlag args with
      | .error flag => missingValue flag
      | .ok demo =>
        let settings : Settings := {
          options := { fuse := !args.contains "--no-fuse" }
          listing := args.contains "--listing"
          verbose := args.contains "--verbose"
          image }
        match demo with
        | some name => compileDemo settings name
        | none =>
          match inputFile? args with
          | some path => compileFile settings path
          | none => .exit 1 usage ""

end Shell

end GridStack
