import GridStack.Image.Basic
import GridStack.Wire.Format

/-!
# Images on the wire

An image is the list of its instructions and the list of its symbols, each with its parts in order.
-/

namespace GridStack

namespace Opcode

/-- All opcodes, in the order of their numbers. -/
def all : List Opcode :=
  [noop, const, push, pop, load, store, copy, input, output, jumpIf, add, mult, and, or, xor, lshift,
    rshift, not, equals, lessThan]

end Opcode

namespace Wire

/-- The form of an opcode. -/
def opcode (op : Opcode) : List UInt8 :=
  enumeration Opcode.all op

/-- The form of an instruction. -/
def instruction (instr : Instruction) : List UInt8 :=
  opcode instr.op ++ option int32 instr.a ++ option int32 instr.b

/-- The form of a symbol. -/
def symbol (s : Symbol) : List UInt8 :=
  text s.name ++ uint32 s.entry

end Wire

namespace Decoder

/-- Reads an opcode. -/
def opcode : Decoder Opcode :=
  enumeration Opcode.all

/-- Reads an instruction. -/
def instruction : Decoder Instruction := do
  let op ← opcode
  let a ← option int32
  let b ← option int32
  return { op, a, b }

/-- Reads a symbol. -/
def symbol : Decoder Symbol := do
  let name ← text
  let entry ← uint32
  return { name, entry }

/-- Reads an image. -/
def image : Decoder Image := do
  let code ← list instruction
  let symbols ← list symbol
  return { code, symbols }

end Decoder

namespace Image

/-- The bytes of an image. -/
def toBytes (image : Image) : List UInt8 :=
  Wire.list Wire.instruction image.code ++ Wire.list Wire.symbol image.symbols

/-- The image that bytes begin with. -/
def ofBytes (input : List UInt8) : Except DecodeError Image :=
  Decoder.image.run input

end Image

end GridStack
