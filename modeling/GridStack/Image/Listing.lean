import GridStack.Image.Basic
import GridStack.Register

/-!
# Annotated listings

An annotated listing numbers the instructions, puts a banner over every function, marks the positions
that are jumped to, and says what a transfer of control does. A constant is recognised as a position by
what follows it: a pop into the program counter, a pop into the scratch register and a conditional jump
through it, or, for an address to come back to, a push of the base. It is no such address where the push
begins the move of the base to a new frame.
-/

namespace GridStack

namespace Listing

/-- Whether code begins with an instruction on a register. -/
def startsWith (op : Opcode) (register : Int32) : List Instruction → Bool
  | instr :: _ => instr.op == op && instr.a == some register
  | [] => false

/-- Whether code begins with a constant, its addition, and a pop into the base. -/
def startsFrame : List Instruction → Bool
  | offset :: sum :: rest =>
    offset.op == .const && (sum.op == .add && sum.a == none) && startsWith .pop Register.base rest
  | _ => false

/-- Whether a constant in front of the given code is a position. -/
def usesTarget (code : List Instruction) : Bool :=
  startsWith .pop Register.pc code
    || (startsWith .pop Register.scratch code && startsWith .jumpIf Register.scratch code.tail)
    || (startsWith .push Register.base code && !startsFrame code.tail)

/-- The position that an instruction in front of the given code loads, if it loads one. -/
def target? (instr : Instruction) (rest : List Instruction) : Option Nat :=
  match instr.a with
  | some target =>
    if instr.op = .const ∧ usesTarget rest ∧ 0 ≤ target then some target.toInt.toNat else none
  | none => none

/-- The positions reached by a jump, a conditional jump, a call or a return. -/
def targets : List Instruction → List Nat
  | [] => []
  | instr :: rest =>
    match target? instr rest with
    | some target => target :: targets rest
    | none => targets rest

/-- What a pop into the program counter does, given the instruction in front of it. -/
def transfer : Option Instruction → String
  | some ⟨.const, a, _⟩ =>
    if a = some halt then "halt" else "jump " ++ operandText (a.getD 0)
  | _ => "return"

/-- What an instruction does, given the one in front of it; most need no comment. -/
def comment? (previous : Option Instruction) (instr : Instruction) : Option String :=
  match instr.op, instr.a with
  | .pop, some register => if register = Register.pc then some (transfer previous) else none
  | .jumpIf, _ => some "jump if zero"
  | .copy, some dest =>
    some ("r" ++ operandText dest ++ " := r" ++ operandText (instr.b.getD 0))
  | _, _ => none

/-- A text filled up in front to a width. -/
def padLeft (width : Nat) (fill : Char) (text : String) : String :=
  String.ofList (List.replicate (width - text.length) fill) ++ text

/-- A text filled up behind with blanks to a width. -/
def padRight (width : Nat) (text : String) : String :=
  text ++ String.ofList (List.replicate (width - text.length) ' ')

/-- The line above and below the name of a function. -/
def rule : String :=
  String.ofList (List.replicate 40 '═')

/-- The banner of a function. -/
def banner (name : String) : String :=
  rule ++ "\n " ++ name ++ "\n" ++ rule ++ "\n"

/-- The banners of the functions that begin at a position. -/
def banners (symbols : List Symbol) (position : Nat) : String :=
  String.join ((symbols.filter fun s => s.entry.toNat == position).map fun s => banner s.name)

/-- The line of an instruction, with its comment in a column of its own. -/
def line (targets : List Nat) (position : Nat) (previous : Option Instruction)
    (instr : Instruction) : String :=
  let arrow := if position ∈ targets then "► " else "  "
  let body := padLeft 4 '0' (toString position) ++ " " ++ arrow ++ instr.text
  match comment? previous instr with
  | some comment => padRight 28 body ++ "; " ++ comment ++ "\n"
  | none => body ++ "\n"

/-- The lines of code that begins at a position, behind a given instruction. -/
def lines (symbols : List Symbol) (targets : List Nat) :
    Nat → Option Instruction → List Instruction → List String
  | _, _, [] => []
  | position, previous, instr :: rest =>
    (banners symbols position ++ line targets position previous instr)
      :: lines symbols targets (position + 1) (some instr) rest

end Listing

namespace Image

/-- The annotated listing of an image. -/
def listing (image : Image) : String :=
  String.join (Listing.lines image.symbols (Listing.targets image.code) 0 none image.code)

end Image

end GridStack
