import GridStack.Machine.Basic

/-!
# Steps

One step advances the program counter and then does what the instruction says. Operands are taken from
the stack before registers are looked up, and a step that faults leaves the machine as it was at that
moment.
-/

namespace GridStack

/-- Why a run is broken off. -/
inductive Fault
  | stackUnderflow
  | noRegister (register : Int32)
  | frameAddress (address : Int64)
  | marker
  | stepLimit (limit : Nat)
  | stackLimit
deriving DecidableEq

namespace Fault

/-- The text of a fault. -/
def message : Fault → String
  | stackUnderflow => "stack underflow"
  | noRegister register => "no register " ++ operandText register
  | frameAddress address => "frame address " ++ toString address.toInt ++ " out of bounds"
  | marker => "marker survived linking"
  | stepLimit limit => "execution step limit exceeded (" ++ toString limit ++ ")"
  | stackLimit => "stack size limit exceeded"

end Fault

/-- An operation of the machine; a fault keeps the machine that it occurred in. -/
abbrev Operation := EStateM Fault Machine

namespace Operation

/-- Puts a value on the stack. -/
def push (value : Int64) : Operation Unit := fun m =>
  .ok () { m with stack := m.stack.push value }

/-- Takes the top off the stack. -/
def pop : Operation Int64 := fun m =>
  match m.stack.pop? with
  | some (value, rest) => .ok value { m with stack := rest }
  | none => .error .stackUnderflow m

/-- Reads a register. -/
def read (r : Int32) : Operation Int64 := fun m =>
  match m.register? r with
  | some value => .ok value m
  | none => .error (.noRegister r) m

/-- Writes a register. -/
def write (r : Int32) (value : Int64) : Operation Unit := fun m =>
  match m.setRegister? r value with
  | some changed => .ok () changed
  | none => .error (.noRegister r) m

/-- Goes to an address. -/
def goto (address : Int64) : Operation Unit := fun m =>
  .ok () (m.setPc address)

/-- The position on the stack that lies a register's content above the base. -/
def frameAddress (r : Int32) : Operation Nat := do
  let offset ← read r
  fun m =>
    let address := m.base + offset
    if 0 ≤ address.toInt ∧ address.toInt < m.stack.height then
      .ok address.toInt.toNat m
    else
      .error (.frameAddress address) m

/-- Reads the stack at a position. -/
def loadAt (position : Nat) : Operation Int64 := fun m =>
  .ok ((m.stack.get? position).getD 0) m

/-- Writes the stack at a position. -/
def storeAt (position : Nat) (value : Int64) : Operation Unit := fun m =>
  .ok () { m with stack := m.stack.set position value }

/-- Reads a cell of the grid into the scratch register. -/
def input (x y : Int64) : Operation Unit := fun m =>
  .ok () (m.setScratch (m.grid.read x y))

/-- Writes the scratch register to a cell. -/
def output (x y : Int64) : Operation Unit := fun m =>
  .ok () { m with log := ⟨x, y, m.scratch⟩ :: m.log }

/-- Takes two operands off the stack, the right one first, and hands them on. -/
def withOperands {α : Type} (use : Int64 → Int64 → Operation α) : Operation α := do
  let y ← pop
  let x ← pop
  use x y

/-- Puts a function of the two topmost values in their place. -/
def binary (f : Int64 → Int64 → Int64) : Operation Unit :=
  withOperands fun x y => push (f x y)

end Operation

/-- The low sixteen bits of a value. -/
def wrap (value : Int64) : Int64 :=
  value &&& 65535

/-- One where a condition holds, zero elsewhere. -/
def truth (condition : Bool) : Int64 :=
  if condition then 1 else 0

/-- A left shift, cut to a word; by sixteen places or more it leaves nothing. -/
def shiftLeft (x y : Int64) : Int64 :=
  if y < 16 then wrap (x <<< y) else 0

/-- A right shift that keeps the sign; by 64 places or more it leaves nothing. -/
def shiftRight (x y : Int64) : Int64 :=
  if y < 64 then x >>> y else 0

namespace Machine

open Operation in
/-- What an instruction does; a missing operand counts as zero. -/
def execute (instr : Instruction) : Operation Unit :=
  let a := instr.a.getD 0
  let b := instr.b.getD 0
  match instr.op with
  | .noop => throw .marker
  | .const => push a.toInt64
  | .push => do
    let value ← read a
    push value
  | .pop => do
    let value ← pop
    write a value
  | .copy => do
    let value ← read b
    write a value
  | .load => do
    let position ← frameAddress b
    let value ← loadAt position
    write a value
  | .store => do
    let position ← frameAddress b
    let value ← read a
    storeAt position value
  | .jumpIf => do
    let condition ← pop
    if condition = 0 then do
      let address ← read a
      goto address
  | .not => do
    let x ← pop
    push (wrap (~~~x))
  | .input => withOperands input
  | .output => withOperands output
  | .add => binary fun x y => wrap (x + y)
  | .mult => binary fun x y => wrap (x * y)
  | .and => binary fun x y => x &&& y
  | .or => binary fun x y => x ||| y
  | .xor => binary fun x y => x ^^^ y
  | .lshift => binary shiftLeft
  | .rshift => binary shiftRight
  | .equals => binary fun x y => truth (x = y)
  | .lessThan => binary fun x y => truth (x < y)

/-- One step: the program counter moves on, and the instruction it pointed at is executed. -/
def step (instr : Instruction) (m : Machine) : EStateM.Result Fault Machine Unit :=
  execute instr (m.setPc (m.pc + 1))

end Machine

end GridStack
