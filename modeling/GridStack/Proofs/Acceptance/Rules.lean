import GridStack.Link
import Mathlib.Data.List.Nodup

/-!
# The rules of the language

What a program has to be like to be accepted, said of the tree alone. The rules are about single nodes:
`Stmt.Formed` and `Expr.Formed` say which forms there are, and `Stmt.Bound` and `Expr.Bound` that names
have a meaning. A function keeps them when every statement in it does, however deep it stands
(`Stmt.parts`), and every expression whose value is used (`Expr.parts`).

`Program.Acceptable` puts the rules of a program together. Checking, generation and layout have one part
each in keeping programs out that are not acceptable, and none of them is mentioned here.
-/

namespace GridStack

/-- Variables that can all have a register. -/
structure Fit (vars : List String) : Prop where
  nodup : vars.Nodup
  few : vars.length ≤ maxVariables

section Parts

mutual

/-- The expressions in an expression whose values are used, the whole in front of its parts. -/
def Expr.parts : Expr → List Expr
  | .int n => [.int n]
  | .var name => [.var name]
  | .paren inner => .paren inner :: inner.parts
  | .unary op operand => .unary op operand :: operand.parts
  | .binary op lhs rhs => .binary op lhs rhs :: (lhs.parts ++ rhs.parts)
  | .assign op target value => [.assign op target value]
  | .call name args receiver typeArgs => .call name args receiver typeArgs :: Expr.partsOfAll args

/-- The expressions in expressions. -/
def Expr.partsOfAll : List Expr → List Expr
  | [] => []
  | e :: es => e.parts ++ Expr.partsOfAll es

end

mutual

/-- The statements in a statement, in the order in which they begin. -/
def Stmt.parts : Stmt → List Stmt
  | .block body => .block body :: Stmt.partsOfAll body
  | .expr value => [.expr value]
  | .declare decl => [.declare decl]
  | .branch cond yes no => .branch cond yes no :: (yes.parts ++ Stmt.alternativeParts no)
  | .loop cond body => .loop cond body :: body.parts
  | .ret value => [.ret value]

/-- The statements in statements. -/
def Stmt.partsOfAll : List Stmt → List Stmt
  | [] => []
  | s :: rest => s.parts ++ Stmt.partsOfAll rest

/-- The statements in the second arm of a branch. -/
def Stmt.alternativeParts : Option Stmt → List Stmt
  | none => []
  | some no => no.parts

end

/-- The expressions whose values a statement uses itself, and not through a statement in it. -/
def Stmt.operands : Stmt → List Expr
  | .expr (.assign _ _ value) => [value]
  | .expr (.call _ args _ _) => args
  | .declare decl => decl.declarators.filterMap Declarator.init
  | .branch cond _ _ => [cond]
  | .loop cond _ => [cond]
  | .ret value => value.toList
  | _ => []

/-- The names that a statement declares itself. -/
def Stmt.declared : Stmt → List String
  | .declare decl => decl.declarators.map Declarator.name
  | _ => []

end Parts

section Forms

/-- A form of expression that can stand where a value is used. -/
def Expr.Formed : Expr → Prop
  | .int n => -65535 ≤ n.toInt ∧ n.toInt ≤ 65535
  | .binary op _ _ => op ≠ .div ∧ op ≠ .rem ∧ op ≠ .ushr
  | .assign _ _ _ => False
  | .call name args receiver typeArgs =>
    receiver = none ∧ typeArgs = [] ∧ name ≠ outputName ∧ (name = inputName → args.length = 2)
  | .var _ | .paren _ | .unary _ _ => True

/-- A form of statement, in a function that returns a value or not. -/
def Stmt.Formed (returnsValue : Bool) : Stmt → Prop
  | .expr (.assign op _ _) => op = .plain
  | .expr (.call name args receiver typeArgs) =>
    receiver = none ∧ typeArgs = [] ∧ name ≠ inputName ∧ (name = outputName → args.length = 3)
  | .expr _ => False
  | .declare decl =>
    decl.type = .int ∧ decl.modifiers = [] ∧ ∃ name init, decl.declarators = [⟨name, some init⟩]
  | .ret value => value.isSome = returnsValue
  | .block _ | .branch _ _ _ | .loop _ _ => True

/-- A statement of an accepted form, with such forms as its operands. -/
def Stmt.Sound (returnsValue : Bool) (s : Stmt) : Prop :=
  s.Formed returnsValue ∧ ∀ e ∈ Expr.partsOfAll s.operands, e.Formed

end Forms

section Names

/-- What names mean in a function. -/
structure Scope where
  /-- The name is a variable. -/
  Variable : String → Prop
  /-- The name is a function that can be called with so many arguments, for its value or not. -/
  Function : (name : String) → (arity : Nat) → (asValue : Bool) → Prop

variable (scope : Scope)

/-- The names in an expression have the meaning that it needs. -/
def Expr.Bound : Expr → Prop
  | .var name => scope.Variable name
  | .call name args _ _ => name = inputName ∨ scope.Function name args.length true
  | .int _ | .paren _ | .unary _ _ | .binary _ _ _ | .assign _ _ _ => True

/-- The names in a statement have the meaning that it needs. -/
def Stmt.Bound : Stmt → Prop
  | .expr (.assign _ target _) => scope.Variable target
  | .expr (.call name args _ _) => name = outputName ∨ scope.Function name args.length false
  | .declare decl => ∀ declarator ∈ decl.declarators, scope.Variable declarator.name
  | _ => True

/-- A statement whose names have a meaning, in its operands too. -/
def Stmt.Closed (s : Stmt) : Prop :=
  s.Bound scope ∧ ∀ e ∈ Expr.partsOfAll s.operands, e.Bound scope

end Names

namespace FunctionDecl

/-- The parameters and the local variables of a function, in the order in which they are declared. -/
def names (decl : FunctionDecl) : List String :=
  decl.params.map Param.name ++ (Stmt.partsOfAll decl.body).flatMap Stmt.declared

/-- What names mean in the body of a function of a program. -/
def scope (program : Program) (decl : FunctionDecl) : Scope where
  Variable name := name ∈ decl.names
  Function name arity asValue := ∃ callee ∈ program.functions, callee.name = name ∧
    callee.params.length = arity ∧ (asValue = true → callee.returnType = .int)

/-- A function whose form is accepted, whatever the names in it mean. -/
structure Formed (decl : FunctionDecl) : Prop where
  plain : decl.modifiers = [] ∧ decl.typeParams = [] ∧ decl.throws = []
  reserved : decl.name ≠ printName
  result : decl.returnType = .int ∨ decl.returnType = .void
  params : ∀ param ∈ decl.params, param.type = .int
  /-- The variables have different names, and there are no more of them than registers. -/
  fit : Fit decl.names
  body : ∀ s ∈ Stmt.partsOfAll decl.body, s.Sound (decl.returnType = .int)

/-- The names in the body of a function have a meaning in a program. -/
def Closed (program : Program) (decl : FunctionDecl) : Prop :=
  ∀ s ∈ Stmt.partsOfAll decl.body, s.Closed (decl.scope program)

end FunctionDecl

namespace Program

/-- A program has a procedure without parameters to start with. -/
def HasMain (program : Program) : Prop :=
  ∃ decl ∈ program.functions, decl.name = mainName ∧ decl.returnType = .void ∧ decl.params = []

/-- A program that is accepted. -/
structure Acceptable (program : Program) : Prop where
  reserved : ∀ decl ∈ program.functions, decl.name ≠ inputName ∧ decl.name ≠ outputName
  distinct : (program.functions.map FunctionDecl.name).Nodup
  main : program.HasMain
  formed : ∀ decl ∈ program.functions, decl.Formed
  closed : ∀ decl ∈ program.functions, decl.Closed program

end Program

/-- The function that a report names as the one at fault. -/
def Diagnostic.function? : Diagnostic → Option String
  | .signature function _ _ _ => function
  | .scope function _ _ => some function
  | .type function _ _ _ => some function
  | .range function _ => some function
  | .internal _ => none

/-- An error is the fault of a function, and its report says so. -/
def CompileError.Blames (function : String) (e : CompileError) : Prop :=
  e.diagnostic.function? = some function

end GridStack
