import GridStack.Draft.Routine
import GridStack.Image.Layout

/-!
# Linking programs

A program is checked function by function, the first fault in the order of the functions being the one
reported; then `main` has to be there and to be a procedure without parameters. Code is generated for
`main` first and for the others in the order of their declaration, and laid out in that order.
-/

namespace GridStack

/-- The choices that a compilation leaves open. -/
structure Options where
  /-- Whether a push followed by a pop becomes a register move. -/
  fuse : Bool := true
deriving DecidableEq, Inhabited

/-- The code of a program before it has a place. -/
structure Object where
  /-- The functions in the order in which they are laid out. -/
  routines : List Routine
  /-- The number of labels taken. -/
  labels : Nat
deriving DecidableEq, Inhabited

namespace Program

/-- Checks functions in their order, when those in `seen` have been declared before. -/
def checkAll (seen : List String) : List FunctionDecl → Except CompileError (List CheckedFunction)
  | [] => .ok []
  | decl :: rest =>
    if decl.name = inputName ∨ decl.name = outputName then
      .error (.reservedName decl.name)
    else if decl.name ∈ seen then
      .error (.duplicateFunction decl.name)
    else do
      let f ← decl.check
      let fs ← checkAll (decl.name :: seen) rest
      return f :: fs

/-- Checks that there is a `main` and that it is a procedure without parameters. -/
def checkMain (program : Program) : Except CompileError Unit :=
  match program.functions.find? (·.name == mainName) with
  | none => .error .missingMain
  | some decl =>
    if decl.returnType = .void ∧ decl.params = [] then .ok () else .error (.badMain decl)

/-- Checks a whole program. -/
def check (program : Program) : Except CompileError (List CheckedFunction) := do
  let functions ← checkAll [] program.functions
  program.checkMain
  return functions

/-- Generates the code of functions in their order, with labels from `next` on. -/
def compileAll (table : FunctionTable) (fuse : Bool) :
    List CheckedFunction → (next : Nat) → Except CompileError Object
  | [], next => .ok { routines := [], labels := next }
  | f :: fs, next => do
    let (routine, next) ← f.compile table fuse next
    let rest ← compileAll table fuse fs next
    return { rest with routines := routine :: rest.routines }

/-- The order in which functions are laid out: `main`, then the others. -/
def layoutOrder (functions : List CheckedFunction) : List CheckedFunction :=
  functions.filter (·.isMain) ++ functions.filter fun f => !f.isMain

/-- Checks a program and generates its code. The first labels are the entries, in the order of the
functions. -/
def compile (program : Program) (options : Options) : Except CompileError Object := do
  let functions ← program.check
  let table := FunctionTable.build functions 0
  compileAll table options.fuse (layoutOrder functions) functions.length

/-- Compiles a program to an image. -/
def link (program : Program) (options : Options) : Except CompileError Image := do
  let object ← program.compile options
  Image.ofRoutines object.routines

end Program

end GridStack
