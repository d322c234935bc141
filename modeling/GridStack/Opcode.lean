/-!
# Opcodes

The twenty instructions of the stack machine, with what is known of them without running anything:
the net effect on the height of the stack, the number of operands, and the name.
-/

namespace GridStack

/-- An instruction of the machine, without its operands. The comments show the stack before and after,
its top on the right. -/
inductive Opcode
  /-- Marks a place to jump to. No compiled image contains it. -/
  | noop
  /-- Pushes a number: `CONST k` ( -- k ). -/
  | const
  /-- Pushes a register: `PUSH r` ( -- r ). -/
  | push
  /-- Pops into a register: `POP r` ( x -- ). -/
  | pop
  /-- Reads a word of the current frame into a register: `LOAD r s` ( -- ). No program is compiled to
  it. -/
  | load
  /-- Writes a register to a word of the current frame: `STORE r s` ( -- ). No program is compiled to
  it. -/
  | store
  /-- Copies register `s` into register `r`: `COPY r s` ( -- ). -/
  | copy
  /-- Reads the cell `(x, y)` into the scratch register: `INPUT` ( x y -- ). -/
  | input
  /-- Writes the scratch register to the cell `(x, y)`: `OUTPUT` ( x y -- ). -/
  | output
  /-- Goes to the address in `r` when `c` is zero: `JUMPIF r` ( c -- ). -/
  | jumpIf
  | add
  | mult
  | and
  | or
  | xor
  | lshift
  | rshift
  /-- Complements the bits of a word: `NOT` ( x -- y ). -/
  | not
  | equals
  | lessThan
deriving DecidableEq, Inhabited

namespace Opcode

/-- By how much the instruction changes the height of the stack. -/
def stackEffect : Opcode → Int
  | noop | load | store | copy | not => 0
  | const | push => 1
  | pop | jumpIf => -1
  | input | output => -2
  | add | mult | and | or | xor | lshift | rshift | equals | lessThan => -1

/-- How many operands the instruction has. -/
def arity : Opcode → Nat
  | const | push | pop | jumpIf => 1
  | load | store | copy => 2
  | _ => 0

/-- The name by which the instruction is written. -/
def mnemonic : Opcode → String
  | noop => "NOOP"
  | const => "CONST"
  | push => "PUSH"
  | pop => "POP"
  | load => "LOAD"
  | store => "STORE"
  | copy => "COPY"
  | input => "INPUT"
  | output => "OUTPUT"
  | jumpIf => "JUMPIF"
  | add => "ADD"
  | mult => "MULT"
  | and => "AND"
  | or => "OR"
  | xor => "XOR"
  | lshift => "LSHIFT"
  | rshift => "RSHIFT"
  | not => "NOT"
  | equals => "EQUALS"
  | lessThan => "LESSTHAN"

end Opcode

end GridStack
