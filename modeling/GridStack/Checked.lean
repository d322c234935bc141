import GridStack.CompileError

/-!
# Checked functions

A function is accepted when everything in it is something that code is generated for. What is kept of
it is its name, how it is called, its body, and its variables in the order of their declaration: the
parameters, then the locals of the body wherever they stand. Whether a called function exists, and
whether a name that is read was declared, is not looked at here.
-/

namespace GridStack

/-- The name of the function that a program starts with. -/
def mainName : String := "main"

/-- The name of the builtin that reads a cell. -/
def inputName : String := "input"

/-- The name of the builtin that writes a cell. -/
def outputName : String := "output"

/-- A name that is kept for a builtin of debugging. -/
def printName : String := "print"

/-- A function that passed the check. -/
structure CheckedFunction where
  name : String
  /-- The number of parameters. -/
  params : Nat
  returnsValue : Bool
  /-- Parameters and locals; a variable's index decides its register. -/
  vars : List String
  body : List Stmt

namespace CheckedFunction

/-- The index of a variable. -/
def variableIndex? (f : CheckedFunction) (name : String) : Option Nat :=
  f.vars.idxOf? name

/-- Whether the program starts with this function. -/
def isMain (f : CheckedFunction) : Bool :=
  f.name == mainName

/-- `main` is known by its name alone. -/
theorem isMain_iff {f : CheckedFunction} : f.isMain = true ↔ f.name = mainName :=
  beq_iff_eq

end CheckedFunction

namespace Check

/-- Adds a name to the variables of a function. -/
def declare (function name : String) (vars : List String) :
    Except CompileError (List String) :=
  if name ∈ vars then
    .error (.redeclared function name)
  else if maxVariables < vars.length + 1 then
    .error (.tooManyVariables function name)
  else
    .ok (vars ++ [name])

/-- Only plain assignment is accepted. -/
def assignOp (function : String) (construct : Expr) : AssignOp → Except CompileError Unit
  | .plain => .ok ()
  | .compound op => .error (.shape function (.expr construct) (.compoundAssignment op))

/-- A call has neither a receiver nor type arguments. -/
def callShape (function : String) (call : Call) : Except CompileError Unit :=
  if call.receiver.isSome then
    .error (.shape function (.call call) .receiver)
  else if call.typeArgs ≠ [] then
    .error (.shape function (.call call) .typeArguments)
  else
    .ok ()

/-- An operator that the machine has no code for is refused before its operands. -/
def binaryOp (function : String) (construct : Expr) : BinaryOp → Except CompileError Unit
  | .div => .error (.shape function (.expr construct) (.operator .div))
  | .rem => .error (.shape function (.expr construct) (.operator .rem))
  | .ushr => .error (.shape function (.expr construct) (.operator .ushr))
  | _ => .ok ()

mutual

/-- Checks an expression whose value is used. -/
def value (function : String) : Expr → Except CompileError Unit
  | .int n => if (literalWord? n).isSome then .ok () else .error (.literalRange function n)
  | .var _ => .ok ()
  | .paren inner => value function inner
  | .unary _ operand => value function operand
  | .binary op lhs rhs => do
    binaryOp function (.binary op lhs rhs) op
    value function lhs
    value function rhs
  | .assign op target e => do
    assignOp function (.assign op target e) op
    .error (.shape function (.expr (.assign op target e)) .assignmentValue)
  | .call name args receiver typeArgs => do
    let call : Call := ⟨name, args, receiver, typeArgs⟩
    callShape function call
    if name = outputName then
      .error (.shape function (.call call) .outputValue)
    else if name = inputName ∧ args.length ≠ 2 then
      .error (.inputArity function call)
    else
      values function args

/-- Checks expressions from left to right. -/
def values (function : String) : List Expr → Except CompileError Unit
  | [] => .ok ()
  | e :: es => do
    value function e
    values function es

end

/-- Checks an expression that is a statement: it has to be an assignment or a call. -/
def effect (function : String) : Expr → Except CompileError Unit
  | .assign op target e => do
    assignOp function (.assign op target e) op
    value function e
  | .call name args receiver typeArgs => do
    let call : Call := ⟨name, args, receiver, typeArgs⟩
    callShape function call
    if name = inputName then
      .error (.shape function (.stmt (.expr call.toExpr)) .inputStatement)
    else if name = outputName ∧ args.length ≠ 3 then
      .error (.outputArity function call)
    else
      values function args
  | other => .error (.shape function (.stmt (.expr other)) .idleStatement)

/-- Checks a local declaration and adds its name; the name is known to its own initial value. -/
def declaration (function : String) (decl : VarDecl) (vars : List String) :
    Except CompileError (List String) :=
  if decl.type ≠ .int then
    .error (.notInt function (.stmt (.declare decl)) decl.type)
  else
    match decl.declarators with
    | [⟨name, init⟩] =>
      if decl.modifiers ≠ [] then
        .error (.shape function (.stmt (.declare decl)) .declarationModifiers)
      else
        match init with
        | none => .error (.shape function (.stmt (.declare decl)) .missingInitialiser)
        | some e => do
          let vars ← declare function name vars
          value function e
          return vars
    | _ => .error (.shape function (.stmt (.declare decl)) .severalDeclarators)

/-- Checks that a value is returned exactly where one is promised. -/
def result (function : String) (returnsValue : Bool) : Option Expr → Except CompileError Unit
  | some e =>
    if returnsValue then value function e
    else .error (.shape function (.stmt (.ret (some e))) .valueFromVoid)
  | none =>
    if returnsValue then .error (.shape function (.stmt (.ret none)) .missingValue)
    else .ok ()

mutual

/-- Checks a statement and adds the variables it declares. -/
def stmt (function : String) (returnsValue : Bool) :
    Stmt → List String → Except CompileError (List String)
  | .block body, vars => stmts function returnsValue body vars
  | .expr e, vars => do
    effect function e
    return vars
  | .declare decl, vars => declaration function decl vars
  | .branch cond yes no, vars => do
    value function cond
    let vars ← stmt function returnsValue yes vars
    alternative function returnsValue no vars
  | .loop cond body, vars => do
    value function cond
    stmt function returnsValue body vars
  | .ret e, vars => do
    result function returnsValue e
    return vars

/-- Checks statements in their order. -/
def stmts (function : String) (returnsValue : Bool) :
    List Stmt → List String → Except CompileError (List String)
  | [], vars => .ok vars
  | s :: rest, vars => do
    let vars ← stmt function returnsValue s vars
    stmts function returnsValue rest vars

/-- Checks the second arm of a branch. -/
def alternative (function : String) (returnsValue : Bool) :
    Option Stmt → List String → Except CompileError (List String)
  | none, vars => .ok vars
  | some s, vars => stmt function returnsValue s vars

end

/-- Checks parameters in their order and adds their names. -/
def params (function : String) : List Param → List String → Except CompileError (List String)
  | [], vars => .ok vars
  | p :: ps, vars =>
    if p.type ≠ .int then
      .error (.notInt function (.param p) p.type)
    else do
      let vars ← declare function p.name vars
      params function ps vars

end Check

namespace FunctionDecl

/-- Whether the result of a function has a value, unless its type is no result type. -/
def returnsValue (decl : FunctionDecl) : Except CompileError Bool :=
  match decl.returnType with
  | .int => .ok true
  | .void => .ok false
  | .other _ => .error (.returnType decl)

/-- Checks a function: its header, its parameters, then its body, and reports the first fault. -/
def check (decl : FunctionDecl) : Except CompileError CheckedFunction :=
  if decl.modifiers ≠ [] ∨ decl.typeParams ≠ [] ∨ decl.throws ≠ [] then
    .error (.decorated decl)
  else if decl.name = printName then
    .error (.reservedName decl.name)
  else do
    let returnsValue ← decl.returnsValue
    let vars ← Check.params decl.name decl.params []
    let vars ← Check.stmts decl.name returnsValue decl.body vars
    return {
      name := decl.name
      params := decl.params.length
      returnsValue
      vars
      body := decl.body }

end FunctionDecl

end GridStack
