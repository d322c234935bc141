import GridStack.Diagnostic
import GridStack.Draft.Instr
import GridStack.Register

/-!
# Compile errors

The causes for which a program is refused, and the report of each. The last ones, from `stackMismatch` on,
are broken rules of the compiler itself.
-/

namespace GridStack

/-- A piece of a program that an error points at. -/
inductive Construct
  | param (param : Param)
  | stmt (stmt : Stmt)
  | expr (expr : Expr)

namespace Construct

/-- A construct is shown as it is written. -/
def text : Construct → String
  | param p => p.text
  | stmt s => s.text
  | expr e => e.text

/-- A call as a construct. -/
def call (call : Call) : Construct :=
  .expr call.toExpr

end Construct

/-- The ways in which a construct can have the wrong shape for its position. -/
inductive ShapeFault
  /-- A declaration has no name, or more than one. -/
  | severalDeclarators
  /-- A declaration has modifiers. -/
  | declarationModifiers
  /-- A declared variable gets no initial value. -/
  | missingInitialiser
  /-- A function without a result returns a value. -/
  | valueFromVoid
  /-- A function with a result returns without a value. -/
  | missingValue
  /-- A cell is read and its value is not used. -/
  | inputStatement
  /-- A statement is an expression that does nothing. -/
  | idleStatement
  /-- The machine has no code for the operator. -/
  | operator (op : BinaryOp)
  /-- An assignment uses the old value. -/
  | compoundAssignment (op : BinaryOp)
  /-- The value of an assignment is used. -/
  | assignmentValue
  /-- A call has a receiver. -/
  | receiver
  /-- A call has type arguments. -/
  | typeArguments
  /-- The value of a write is used. -/
  | outputValue
  /-- The value of a function without a result is used. -/
  | voidValue (callee : String)
deriving DecidableEq

namespace ShapeFault

/-- What is wrong with the shape. -/
def reason : ShapeFault → String
  | severalDeclarators => "cannot declare multiple variables at once"
  | declarationModifiers => "variable declaration cannot have modifiers"
  | missingInitialiser => "variable declaration must have initialiser"
  | valueFromVoid => "cannot return value from void function"
  | missingValue => "non-void function must return a value"
  | inputStatement => "input(...) call cannot be statement"
  | idleStatement => "expression statement must be an assignment or a call"
  | operator op => "invalid binary operator " ++ op.text
  | compoundAssignment op => "illegal assignment operator " ++ (AssignOp.compound op).text
  | assignmentValue => "assignment cannot be used as a value"
  | receiver => "method call cannot have scope"
  | typeArguments => "method call cannot have type arguments"
  | outputValue => "output(...) call cannot be expression"
  | voidValue callee => "function " ++ callee ++ " is void, cannot be expression"

/-- How to write it instead, where that is short. -/
def hint? : ShapeFault → Option String
  | compoundAssignment _ => some "only plain `=` assignment is supported"
  | _ => none

end ShapeFault

/-- Why a program is refused. -/
inductive CompileError
  /-- A function has modifiers, type parameters or declared exceptions. -/
  | decorated (decl : FunctionDecl)
  /-- A function has the name of a builtin. -/
  | reservedName (name : String)
  /-- Two functions have one name. -/
  | duplicateFunction (name : String)
  /-- The type of a result is neither `int` nor `void`. -/
  | returnType (decl : FunctionDecl)
  /-- No function is called `main`. -/
  | missingMain
  /-- The function `main` has parameters or a result. -/
  | badMain (decl : FunctionDecl)
  /-- A call has a number of arguments other than the one expected. -/
  | arity (function : String) (call : Call) (expected : Nat)
  /-- A read does not have two arguments. -/
  | inputArity (function : String) (call : Call)
  /-- A write does not have three arguments. -/
  | outputArity (function : String) (call : Call)
  /-- Two variables of a function have one name. -/
  | redeclared (function name : String)
  /-- A name is no variable of the function. -/
  | undeclaredVariable (function name : String)
  /-- There is no register left for a variable. -/
  | tooManyVariables (function name : String)
  /-- A called function does not exist. -/
  | undeclaredFunction (function : String) (call : Call)
  /-- A construct has the wrong shape. -/
  | shape (function : String) (construct : Construct) (fault : ShapeFault)
  /-- A variable is of another type than `int`. -/
  | notInt (function : String) (construct : Construct) (found : TypeName)
  /-- A literal is no word. -/
  | literalRange (function : String) (value : Int64)
  /-- The stack is not as it was when the end of a function is reached. -/
  | stackMismatch (function : String) (depth : Int)
  /-- An instruction takes more from the stack than there is. -/
  | stackUnderflow (function : String) (instr : Instr)
  /-- Code is asked for something that no accepted function contains. -/
  | unchecked (function : String) (construct : Construct)
  /-- A function to be compiled is not among those that can be called. -/
  | missingFromTable (function : String)
  /-- A label is placed for the second time. -/
  | placedTwice (label : Label)
  /-- A label is used and not placed. -/
  | unplaced (label : Label)
  /-- The label of a function's entry is not placed. -/
  | missingEntry (function : String)

namespace CompileError

/-- The report of an error. -/
def diagnostic : CompileError → Diagnostic
  | decorated decl =>
    .signature (some decl.name) decl.text
      "function must not have modifiers, type parameters or declared exceptions"
      (some "declare functions as plain `int name(...)` or `void name(...)`")
  | reservedName name =>
    .signature (some name) name ("function name '" ++ name ++ "' is reserved")
      (some "`input`, `output` and `print` are builtins")
  | duplicateFunction name =>
    .signature (some name) name ("function '" ++ name ++ "' already exists") none
  | returnType decl =>
    .signature (some decl.name) decl.text
      ("invalid return type '" ++ decl.returnType.text ++ "'") none
  | missingMain =>
    .signature none "main" "program has no main() function"
      (some "add `void main() \x7b ... \x7d` as the entry point")
  | badMain decl =>
    .signature (some decl.name) decl.text "main() function must be void with no parameters" none
  | arity function call expected =>
    .signature (some function) call.text
      ("wrong number of arguments for function " ++ call.name ++ "; expected "
        ++ toString expected ++ ", was " ++ toString call.args.length) none
  | inputArity function call =>
    .signature (some function) call.text "input(x,y) must take two arguments" none
  | outputArity function call =>
    .signature (some function) call.text "output(x,y,v) must take three arguments" none
  | redeclared function name => .scope function name "variable already declared"
  | undeclaredVariable function name => .scope function name "no such variable"
  | tooManyVariables function name =>
    .scope function name
      ("too many variables (max " ++ toString maxVariables ++ " per function)")
  | undeclaredFunction function call => .scope function call.name "no such function"
  | shape function construct fault => .type function construct.text fault.reason fault.hint?
  | notInt function construct found => .notInt function construct.text found
  | literalRange function value => .range function value
  | stackMismatch function depth =>
    .internal ("incorrect stack depth " ++ toString depth ++ " at return point in " ++ function
      ++ "; expected 0")
  | stackUnderflow function instr =>
    .internal ("stack underflow in " ++ function ++ " at " ++ instr.text)
  | unchecked function construct =>
    .internal ("unvalidated construct reached code generation in " ++ function ++ ": "
      ++ construct.text)
  | missingFromTable function => .internal ("function " ++ function ++ " missing from table")
  | placedTwice label => .internal ("label " ++ label.text ++ " placed twice")
  | unplaced label => .internal ("unresolved label " ++ label.text)
  | missingEntry function => .internal ("function " ++ function ++ " has no entry marker")

/-- Two steps succeed together exactly when they succeed one by one. -/
theorem bind_eq_ok_iff {α β : Type} {x : Except CompileError α} {f : α → Except CompileError β} {result : β} :
    x >>= f = .ok result ↔ ∃ a, x = .ok a ∧ f a = .ok result := by
  cases x with
  | error e =>
    constructor
    · intro ok
      contradiction
    · rintro ⟨_, failed, _⟩
      contradiction
  | ok a =>
    constructor
    · exact fun ok => ⟨a, rfl, ok⟩
    · rintro ⟨_, ⟨⟩, ok⟩
      exact ok

end CompileError

end GridStack
