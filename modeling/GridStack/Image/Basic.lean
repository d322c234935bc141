import GridStack.Opcode

/-!
# Images

An image is what the machine runs: instructions whose operands are all numbers, and the entry of each
function. Its plain listing has one instruction on a line.
-/

namespace GridStack

/-- An instruction at its place, with its operands. -/
structure Instruction where
  op : Opcode
  a : Option Int32
  b : Option Int32
deriving DecidableEq, Inhabited

/-- The number of an operand in decimal digits. -/
def operandText (n : Int32) : String :=
  toString n.toInt

namespace Instruction

/-- The name of the instruction and its operands; a second operand shows only behind a first. -/
def text (instr : Instruction) : String :=
  match instr.a, instr.b with
  | none, _ => instr.op.mnemonic
  | some a, none => instr.op.mnemonic ++ " " ++ operandText a
  | some a, some b => instr.op.mnemonic ++ " " ++ operandText a ++ " " ++ operandText b

end Instruction

/-- Where the code of a function begins. -/
structure Symbol where
  name : String
  entry : UInt32
deriving DecidableEq, Inhabited

/-- A program ready to run, from position 0 on. -/
structure Image where
  code : List Instruction
  /-- The functions in the order of their code. -/
  symbols : List Symbol
deriving DecidableEq, Inhabited

namespace Image

/-- The plain listing: every instruction on a line of its own. -/
def text (image : Image) : String :=
  String.join (image.code.map fun instr => instr.text ++ "\n")

/-- The first symbol of a name. -/
def symbol? (image : Image) (name : String) : Option Symbol :=
  image.symbols.find? (·.name == name)

end Image

end GridStack
