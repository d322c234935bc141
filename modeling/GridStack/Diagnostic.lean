import GridStack.Program.Text
import GridStack.Word

/-!
# Diagnostics

What a refused program is told: the kind of the mistake, the function and the piece of the program at
fault, the reason, and sometimes a hint on a second line.
-/

namespace GridStack

/-- A report, with its parts still apart. -/
inductive Diagnostic
  /-- A malformed header, a bad name, a wrong shape of `main`, a wrong number of arguments. -/
  | signature (function : Option String) (construct reason : String) (hint : Option String)
  /-- A name without a meaning, with two, or with no room. -/
  | scope (function name reason : String)
  /-- A construct whose type or shape does not fit its position. -/
  | type (function construct reason : String) (hint : Option String)
  /-- A literal that is no word. -/
  | range (function : String) (value : Int64)
  /-- A broken rule of the compiler itself. -/
  | internal (reason : String)
deriving DecidableEq

namespace Diagnostic

/-- The name of the kind. -/
def kind : Diagnostic → String
  | signature .. => "signature"
  | scope .. => "scope"
  | type .. => "type"
  | range .. => "range"
  | internal _ => "internal"

/-- Replaces the hint of a report that can have one. -/
def withHint (hint : String) : Diagnostic → Diagnostic
  | signature function construct reason _ => signature function construct reason (some hint)
  | type function construct reason _ => type function construct reason (some hint)
  | other => other

/-- A variable of a type other than `int`. -/
def notInt (function construct : String) (found : TypeName) : Diagnostic :=
  type function construct ("invalid type '" ++ found.text ++ "'")
    (some "only `int` variables are supported")

/-- The line of a hint, nothing without one. -/
def hintLine : Option String → String
  | none => ""
  | some hint => "\n  hint: " ++ hint

/-- Where a report places the mistake, nothing when it is no function's. -/
def location : Option String → String
  | none => ""
  | some function => " in '" ++ function ++ "'"

/-- The text of a report. -/
def message : Diagnostic → String
  | signature function construct reason hint =>
    "compile error: signature error" ++ location function ++ ": " ++ reason ++ ": " ++ construct
      ++ hintLine hint
  | scope function name reason =>
    "compile error: scope error" ++ location (some function) ++ ": " ++ reason ++ " '" ++ name ++ "'"
  | type function construct reason hint =>
    "compile error: type error" ++ location (some function) ++ ": " ++ reason ++ ": " ++ construct
      ++ hintLine hint
  | range function value =>
    "compile error: range error" ++ location (some function) ++ ": integer literal "
      ++ toString value.toInt ++ " too large (limit is +/-" ++ toString maxWord.toInt ++ ")"
  | internal reason => "compile error: internal error: " ++ reason

end Diagnostic

end GridStack
