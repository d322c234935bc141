/-!
# Registers

The machine has eight registers. Three have a role of their own, and the other five hold the variables
of the function that runs, in the order of their declaration.
-/

namespace GridStack

namespace Register

/-- The program counter. A word popped into it is a jump. -/
def pc : Int32 := 0

/-- The base of the current frame on the stack. -/
def base : Int32 := 1

/-- The scratch register: values read and written, jump targets and results pass through it. -/
def scratch : Int32 := 2

/-- The register of the first variable. -/
def firstVar : Int32 := 3

/-- The register of the variable with a given index. -/
def ofVar (index : Nat) : Int32 :=
  firstVar + Int32.ofNat index

end Register

/-- The number of variables that fit into registers. -/
def maxVariables : Nat := 5

/-- The number of registers. -/
def registerCount : Nat := 8

/-- The jump target that stops the machine. -/
def halt : Int32 := -1

/-- The words of a frame below its arguments: the caller's base and the return address. -/
def frameWords : Nat := 2

end GridStack
