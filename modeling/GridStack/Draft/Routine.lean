import GridStack.Draft.Body

/-!
# The code of a function

The entry takes the arguments off the stack into the registers of the parameters, the last one first.
Behind the body `main` stops the machine, and any other function restores the caller's base and goes back
to the return address.
-/

namespace GridStack

namespace Emit

/-- Appends an instruction that works on the frame of the caller, and so below this function's count. -/
def beneath (i : Instr) : Emit Unit := fun draft =>
  .ok ((), { draft with depth := draft.depth + i.op.stackEffect, reversed := i :: draft.reversed })

/-- The end of a function. -/
def epilogue (site : Site) : Emit Unit := do
  let words ← depth
  if words ≠ 0 then
    fail (.stackMismatch site.function.name words)
  else if site.function.isMain then
    jump site (.imm halt)
  else do
    beneath (.imm .pop Register.base)
    beneath (.imm .pop Register.pc)

/-- The whole code of a function whose entry has the given label. -/
def function (site : Site) (entry : Label) : Emit Unit := do
  mark site entry
  each site .pop ((List.range site.function.params).map Register.ofVar).reverse
  stmts site site.function.body
  mark site site.exit
  epilogue site

end Emit

namespace CheckedFunction

/-- Generates the code of a function, with labels from `next` on, and gives the number of the next label
after it. The arguments are on the stack at the start; their number is counted with 32 bits. -/
def compile (f : CheckedFunction) (table : FunctionTable) (fuse : Bool) (next : Nat) :
    Except CompileError (Routine × Nat) :=
  match table.find? f.name with
  | none => .error (.missingFromTable f.name)
  | some self => do
    let site : Site := { function := f, table, fuse, exit := ⟨next⟩ }
    let start : Draft := { nextLabel := next + 1, depth := (Int32.ofNat f.params).toInt, reversed := [] }
    let ((), draft) ← Emit.function site self.entry start
    return ({ name := f.name, entry := self.entry, code := draft.code }, draft.nextLabel)

end CheckedFunction

end GridStack
