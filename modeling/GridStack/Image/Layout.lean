import GridStack.CompileError

/-!
# Layout

Routines are laid out one behind the other. Markers take no room: the position of a label is the number
of instructions kept in front of the one that carries it, and so the position of the first instruction
kept from there on. Operands are only replaced when all positions are known.
-/

namespace GridStack

/-- The labels placed in a program, each with its position, in the order of the code. -/
abbrev Positions := List (Label × Nat)

namespace Layout

/-- The position behind an instruction that stands at a given one. -/
def advance (position : Nat) (instr : Instr) : Nat :=
  if instr.isMarker then position else position + 1

/-- The positions of the labels that code places, when the code begins at a given position. -/
def positions : Nat → List Instr → Positions
  | _, [] => []
  | position, instr :: rest =>
    match instr.mark with
    | none => positions (advance position instr) rest
    | some label => (label, position) :: positions (advance position instr) rest

/-- The first label that stands in the list for the second time, when those in `seen` have stood in front
of it. -/
def repeated? (seen : List Label) : List Label → Option Label
  | [] => none
  | label :: rest => if label ∈ seen then some label else repeated? (label :: seen) rest

/-- The number that an operand stands for. -/
def operand (table : Positions) : Operand → Except CompileError Int32
  | .imm value => .ok value
  | .label target =>
    match table.lookup target with
    | some position => .ok (Int32.ofNat position)
    | none => .error (.unplaced target)

/-- An operand that may be missing. -/
def operand? (table : Positions) : Option Operand → Except CompileError (Option Int32)
  | none => .ok none
  | some x => do
    let value ← operand table x
    return some value

/-- An instruction with its operands replaced. -/
def instruction (table : Positions) (instr : Instr) : Except CompileError Instruction := do
  let a ← operand? table instr.a
  let b ← operand? table instr.b
  return { op := instr.op, a, b }

/-- Code with the operands of every instruction replaced. -/
def instructions (table : Positions) : List Instr → Except CompileError (List Instruction)
  | [] => .ok []
  | instr :: rest => do
    let first ← instruction table instr
    let others ← instructions table rest
    return first :: others

/-- The symbols of routines. -/
def symbols (table : Positions) : List Routine → Except CompileError (List Symbol)
  | [] => .ok []
  | routine :: rest =>
    match table.lookup routine.entry with
    | none => .error (.missingEntry routine.name)
    | some position => do
      let others ← symbols table rest
      return { name := routine.name, entry := UInt32.ofNat position } :: others

end Layout

namespace Image

/-- Lays out routines in their order. It fails when a label is placed twice, when the label of an operand
is not placed, and when a routine's own label is not placed. -/
def ofRoutines (routines : List Routine) : Except CompileError Image :=
  let code := routines.flatMap Routine.code
  let table := Layout.positions 0 code
  match Layout.repeated? [] (table.map Prod.fst) with
  | some label => .error (.placedTwice label)
  | none => do
    let code ← Layout.instructions table (code.filter fun instr => !instr.isMarker)
    let symbols ← Layout.symbols table routines
    return { code, symbols }

end Image

end GridStack
