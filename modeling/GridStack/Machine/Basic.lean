import GridStack.Image.Basic
import GridStack.Machine.Stack
import GridStack.Register

/-!
# The machine

The machine has eight registers, a stack, a grid of cells that can be read, and a log of what was
written. Registers and stack hold 64-bit integers; the results of arithmetic are cut to words. A program
reads the cells as they were given: what it writes goes to the log only.
-/

namespace GridStack

/-- The cells that were given a value, the last one first. -/
abbrev Grid := List ((Int64 × Int64) × Int64)

namespace Grid

/-- The value of a cell, zero unless it was given one. -/
def read (grid : Grid) (x y : Int64) : Int64 :=
  (grid.lookup (x, y)).getD 0

end Grid

/-- A value written to a cell. -/
structure Write where
  x : Int64
  y : Int64
  value : Int64
deriving DecidableEq, Inhabited

/-- The registers by their number. -/
abbrev Registers := Vector Int64 registerCount

/-- A machine between two instructions. -/
structure Machine where
  registers : Registers
  stack : Stack
  grid : Grid
  /-- The writes, the last one first. -/
  log : List Write
  /-- The number of steps taken, of all runs together. -/
  steps : Nat
deriving DecidableEq

namespace Machine

/-- A machine that has not run. -/
def fresh : Machine where
  registers := Vector.replicate registerCount 0
  stack := .empty
  grid := []
  log := []
  steps := 0

/-- The machine that stands for any other is one that has not run. -/
instance : Inhabited Machine := ⟨fresh⟩

/-- Gives a cell a value. -/
def setInput (m : Machine) (x y value : Int64) : Machine :=
  { m with grid := ((x, y), value) :: m.grid }

/-- The writes in the order in which they were made. -/
def writes (m : Machine) : List Write :=
  m.log.reverse

/-- The place of a register, if the machine has one of that number. -/
def place? (r : Int32) : Option (Fin registerCount) :=
  if h : 0 ≤ r.toInt ∧ r.toInt < registerCount then some ⟨r.toInt.toNat, by omega⟩ else none

/-- The content of a register. -/
def register? (m : Machine) (r : Int32) : Option Int64 :=
  match place? r with
  | some place => some m.registers[place]
  | none => none

/-- The machine with a register changed. -/
def setRegister? (m : Machine) (r : Int32) (value : Int64) : Option Machine :=
  match place? r with
  | some place => some { m with registers := m.registers.set place value place.isLt }
  | none => none

/-- The content of the program counter. -/
def pc (m : Machine) : Int64 :=
  m.registers[0]

/-- The content of the base register. -/
def base (m : Machine) : Int64 :=
  m.registers[1]

/-- The content of the scratch register. -/
def scratch (m : Machine) : Int64 :=
  m.registers[2]

/-- The machine with another program counter. -/
def setPc (m : Machine) (value : Int64) : Machine :=
  { m with registers := m.registers.set 0 value }

/-- The machine with another scratch register. -/
def setScratch (m : Machine) (value : Int64) : Machine :=
  { m with registers := m.registers.set 2 value }

/-- The instruction that the program counter points at, none when it points outside the code. -/
def fetch? (m : Machine) (code : Array Instruction) : Option Instruction :=
  if 0 ≤ m.pc.toInt then code[m.pc.toInt.toNat]? else none

/-- Whether the machine has stopped. -/
def halted (m : Machine) (code : Array Instruction) : Bool :=
  (m.fetch? code).isNone

end Machine

end GridStack
