import GridStack.Machine.Step

/-!
# Runs

A machine runs an image until its program counter leaves the code. Two limits break a run off: one on
the steps, checked before a step is taken and counted over all runs of the machine, and one on the
height of the stack, checked after every step.
-/

namespace GridStack

/-- The limits of a run. -/
structure Limits where
  steps : Nat := 1000000
  stack : Nat := 10000
deriving DecidableEq, Inhabited

/-- How a run ends: the machine then, and the fault unless it has stopped by itself. -/
structure Ending where
  machine : Machine
  fault : Option Fault
deriving DecidableEq

namespace Machine

/-- Runs code for as many steps as `remaining`. -/
def runFor (limits : Limits) (code : Array Instruction) : (remaining : Nat) → Machine → Ending
  | 0, m =>
    if m.halted code then ⟨m, none⟩
    else ⟨{ m with steps := m.steps + 1 }, some (.stepLimit limits.steps)⟩
  | remaining + 1, m =>
    match m.fetch? code with
    | none => ⟨m, none⟩
    | some instr =>
      match step instr { m with steps := m.steps + 1 } with
      | .error fault stopped => ⟨stopped, some fault⟩
      | .ok () next =>
        if limits.stack < next.stack.height then ⟨next, some .stackLimit⟩
        else runFor limits code remaining next

/-- Runs an image from where the machine stands. -/
def run (m : Machine) (limits : Limits) (image : Image) : Ending :=
  m.runFor limits image.code.toArray (limits.steps - m.steps)

end Machine

namespace Ending

/-- The position that a fault is reported at, one before the program counter. -/
def position (ending : Ending) : Int64 :=
  ending.machine.pc - 1

/-- The report of a fault. -/
def message (ending : Ending) (fault : Fault) : String :=
  "machine error at pc=" ++ toString ending.position.toInt ++ ": " ++ fault.message

end Ending

end GridStack
