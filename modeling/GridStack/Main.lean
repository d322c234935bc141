import GridStack.Shell.Session

/-!
# The command

Carries the requests of a session out on the system, and the system's answers back to it.
-/

namespace GridStack

/-- The error behind a refusal of the system. -/
def systemError : IO.Error → SystemError
  | .noFileOrDirectory _ code details
  | .alreadyExists _ code details
  | .permissionDenied _ code details
  | .resourceExhausted _ code details
  | .inappropriateType _ code details
  | .noSuchThing _ code details
  | .invalidArgument _ code details
  | .interrupted _ code details => .ofCode code details
  | .otherError code details
  | .resourceBusy code details
  | .resourceVanished code details
  | .unsupportedOperation code details
  | .hardwareFault code details
  | .unsatisfiedConstraints code details
  | .illegalOperation code details
  | .protocolError code details
  | .timeExpired code details => .ofCode code details
  | .unexpectedEof => ⟨0, "unexpected end of file"⟩
  | .userError details => ⟨0, details⟩

/-- Runs a session on the system. -/
def Session.perform : Session → IO UInt32
  | .exit status stdout stderr => do
    IO.eprint stderr
    IO.print stdout
    return status
  | .read path next => do
    let answer ←
      try
        let content ← IO.FS.readBinFile path
        pure (.ok content.data.toList)
      catch error => pure (.error (systemError error))
    (next answer).perform
  | .write path content next => do
    let answer ←
      try
        IO.FS.writeBinFile path ⟨content.toArray⟩
        pure none
      catch error => pure (some (systemError error))
    (next answer).perform

end GridStack

/-- Runs the command with its arguments. -/
def main (args : List String) : IO UInt32 :=
  (GridStack.Shell.session args).perform
