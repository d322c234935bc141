import GridStack.Checked

/-!
# Emission

Code is generated by appending instructions to a draft, which also counts the labels taken and the
words that the function has on the stack at this point. The count follows the instructions as they are
asked for; a register move that is fused as it is appended leaves it as it is.
-/

namespace GridStack

/-- What a call needs to know about the function it calls. -/
structure Callee where
  params : Nat
  returnsValue : Bool
  entry : Label
deriving DecidableEq, Inhabited

/-- Every function of a program by name; of two with one name the later one comes first. -/
abbrev FunctionTable := List (String × Callee)

namespace FunctionTable

/-- Gives each function a label for its entry, in the order of the functions, from `next` on. -/
def build (functions : List CheckedFunction) (next : Nat) : FunctionTable :=
  ((functions.zipIdx next).map fun (f, label) =>
    (f.name, { params := f.params, returnsValue := f.returnsValue, entry := ⟨label⟩ })).reverse

/-- The function of a name. -/
def find? (table : FunctionTable) (name : String) : Option Callee :=
  table.lookup name

end FunctionTable

/-- What stays the same while the code of one function is generated. -/
structure Site where
  function : CheckedFunction
  table : FunctionTable
  /-- Whether a push followed by a pop becomes a register move. -/
  fuse : Bool
  /-- The label behind the body. -/
  exit : Label

/-- The code of a function as far as it is generated. -/
structure Draft where
  /-- The number of the next label. Labels are numbered without end; an allocator of 32 bits numbers them
  alike, as long as fewer than `2^32` are taken. -/
  nextLabel : Nat
  /-- The words on the stack above the frame, as an integer. A counter of 32 bits counts alike, as long as
  the count stays below `2^31`. -/
  depth : Int
  /-- The instructions, the last one first. -/
  reversed : List Instr
deriving DecidableEq, Inhabited

namespace Draft

/-- The instructions in their order. -/
def code (draft : Draft) : List Instr :=
  draft.reversed.reverse

/-- Puts an instruction behind code that is given last instruction first. With fusion a pop that stands
directly behind a push turns the two into a move between registers, or into nothing when the registers
are the same. -/
def append (fuse : Bool) (instr : Instr) : List Instr → List Instr
  | [] => [instr]
  | last :: before =>
    if fuse ∧ instr.op = .pop ∧ last.op = .push then
      match instr.imm?, last.imm? with
      | some dest, some source => if dest = source then before else .copy dest source :: before
      | _, _ => instr :: last :: before
    else
      instr :: last :: before

end Draft

/-- Generation of code: it changes the draft, or fails. -/
abbrev Emit := StateT Draft (Except CompileError)

namespace Emit

/-- Takes a label that nothing else has. -/
def fresh : Emit Label := fun draft =>
  .ok (⟨draft.nextLabel⟩, { draft with nextLabel := draft.nextLabel + 1 })

/-- Changes the count of words on the stack without emitting anything. -/
def adjust (change : Int) : Emit Unit := fun draft =>
  .ok ((), { draft with depth := draft.depth + change })

/-- The count of words on the stack. -/
def depth : Emit Int := fun draft =>
  .ok (draft.depth, draft)

/-- Fails with an error. -/
def fail {α : Type} (error : CompileError) : Emit α := fun _ =>
  .error error

/-- Appends an instruction, which must not take more from the stack than the function has on it. -/
def instr (site : Site) (i : Instr) : Emit Unit := fun draft =>
  let depth := draft.depth + i.op.stackEffect
  if depth < 0 then
    .error (.stackUnderflow site.function.name i)
  else
    .ok ((), { draft with depth, reversed := Draft.append site.fuse i draft.reversed })

/-- Appends an instruction without operands. -/
def plain (site : Site) (op : Opcode) : Emit Unit :=
  instr site (.plain op)

/-- Appends an instruction with one number. -/
def imm (site : Site) (op : Opcode) (a : Int32) : Emit Unit :=
  instr site (.imm op a)

/-- Appends an instruction for each of several registers. -/
def each (site : Site) (op : Opcode) : List Int32 → Emit Unit
  | [] => pure ()
  | r :: rs => do
    imm site op r
    each site op rs

/-- Places a label. -/
def mark (site : Site) (label : Label) : Emit Unit :=
  instr site (.marker label)

/-- The jump to a target, which is popped into the program counter. -/
def jump (site : Site) (target : Operand) : Emit Unit := do
  instr site (.constant target)
  imm site .pop Register.pc

/-- Takes a condition off the stack and jumps when it is zero. The target goes through the scratch
register. -/
def jumpIfZero (site : Site) (target : Label) : Emit Unit := do
  instr site (.constant (.label target))
  imm site .pop Register.scratch
  imm site .jumpIf Register.scratch

/-- Adds one. -/
def increment (site : Site) : Emit Unit := do
  imm site .const 1
  plain site .add

/-- Multiplies by the word that stands for -1. -/
def negate (site : Site) : Emit Unit := do
  imm site .const maxWord
  plain site .mult

/-- Turns zero into one and everything else into zero. -/
def isZero (site : Site) : Emit Unit := do
  imm site .const 0
  plain site .equals

/-- The register of a variable of the function. -/
def register (site : Site) (name : String) : Emit Int32 :=
  match site.function.variableIndex? name with
  | some index => pure (Register.ofVar index)
  | none => fail (.undeclaredVariable site.function.name name)

/-- A construct that no accepted function contains. -/
def refuse {α : Type} (site : Site) (construct : Construct) : Emit α :=
  fail (.unchecked site.function.name construct)

end Emit

end GridStack
