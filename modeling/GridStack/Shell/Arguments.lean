import GridStack.Program.Demo

/-!
# The arguments of the command

Flags may stand anywhere, and flags that are not known are passed over. Two of them take the next
argument as their value. The first argument that is neither a flag nor a value names the input.
-/

namespace GridStack

namespace Shell

/-- The flag before the path that the image is written to. -/
def imageFlag : String := "--image"

/-- The flag before the name of a demonstration program. -/
def demoFlag : String := "--demo"

/-- Whether an argument is a flag. -/
def isFlag (arg : String) : Bool :=
  arg.startsWith "-"

/-- Whether an argument takes the next one as its value. -/
def takesValue (arg : String) : Bool :=
  arg == imageFlag || arg == demoFlag

/-- The value behind the first place of a flag, if the flag is there. A flag without a value is an
error. -/
def flagValue (flag : String) : List String → Except String (Option String)
  | [] => .ok none
  | arg :: rest =>
    if arg = flag then
      match rest with
      | value :: _ => if isFlag value then .error flag else .ok (some value)
      | [] => .error flag
    else
      flagValue flag rest

/-- The first argument that is neither a flag nor a flag's value. -/
def inputFile? : List String → Option String
  | [] => none
  | [arg] => if isFlag arg then none else some arg
  | arg :: next :: rest =>
    if takesValue arg then inputFile? rest
    else if isFlag arg then inputFile? (next :: rest)
    else some arg

/-- The lines that explain the command. -/
def usageLines : List String := [
  "GRIDC - compiler for the grid stack machine",
  "",
  "Usage:",
  "  gridc <program.bin>           Compile a postcard-encoded syntax tree",
  "  gridc --demo <name>           Compile a bundled sample ("
    ++ String.intercalate ", " Demo.names ++ ")",
  "  gridc --listing ...           Print an annotated listing",
  "  gridc --image <out> ...       Also write the linked image",
  "  gridc --no-fuse ...           Keep PUSH/POP register moves unfused",
  "  gridc --verbose ...           Report functions and symbols on stderr",
  "  gridc --help, -h              Show this help"]

/-- The text that explains the command. -/
def usage : String :=
  String.join (usageLines.map (· ++ "\n"))

end Shell

end GridStack
