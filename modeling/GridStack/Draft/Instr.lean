import GridStack.Image.Basic

/-!
# Drafted instructions

While code is being generated the place of an instruction is not yet known, so an operand may name a
label instead of a number. A label is placed by the instruction that carries it as its mark.
-/

namespace GridStack

/-- A place in the code that is to be jumped to. -/
structure Label where
  id : Nat
deriving DecidableEq, Inhabited

namespace Label

/-- The written form of a label. -/
def text (label : Label) : String :=
  "L" ++ toString label.id

end Label

/-- What an instruction works on: a number, or the position of a label. -/
inductive Operand
  | imm (value : Int32)
  | label (target : Label)
deriving DecidableEq, Inhabited

namespace Operand

/-- The number or the label. -/
def text : Operand → String
  | imm value => operandText value
  | label target => target.text

end Operand

/-- An instruction without a place. -/
structure Instr where
  op : Opcode
  a : Option Operand := none
  b : Option Operand := none
  /-- The label that is placed here. -/
  mark : Option Label := none
deriving DecidableEq, Inhabited

namespace Instr

/-- An instruction without operands. -/
def plain (op : Opcode) : Instr :=
  { op }

/-- An instruction with one number. -/
def imm (op : Opcode) (a : Int32) : Instr :=
  { op, a := some (.imm a) }

/-- The constant that is the number or the position that an operand stands for. -/
def constant (operand : Operand) : Instr :=
  { op := .const, a := some operand }

/-- A move from one register to another. -/
def copy (dest source : Int32) : Instr :=
  { op := .copy, a := some (.imm dest), b := some (.imm source) }

/-- The instruction that places a label and does nothing else. -/
def marker (label : Label) : Instr :=
  { op := .noop, mark := some label }

/-- Markers leave no trace in an image. -/
def isMarker (instr : Instr) : Bool :=
  instr.op == .noop

/-- The first operand, if it is a number. -/
def imm? (instr : Instr) : Option Int32 :=
  match instr.a with
  | some (.imm value) => some value
  | _ => none

/-- An optional operand, with a blank in front of it. -/
def operandSuffix : Option Operand → String
  | none => ""
  | some operand => " " ++ operand.text

/-- A marked instruction shows its label only, any other one its name and the operands it has. -/
def text (instr : Instr) : String :=
  match instr.mark with
  | some label => label.text ++ ":"
  | none => instr.op.mnemonic ++ operandSuffix instr.a ++ operandSuffix instr.b

end Instr

/-- The code of one function before it has a place. -/
structure Routine where
  name : String
  entry : Label
  code : List Instr
deriving DecidableEq, Inhabited

end GridStack
