/-!
# The program tree

A program is a list of functions over one kind of value, the machine word. The tree is purely
syntactic: it also has room for shapes that no accepted program contains (modifiers, compound
assignments, calls with a receiver), so that they can be reported in the words they were written in.
-/

namespace GridStack

/-- The written type of a variable, a parameter or a result. -/
inductive TypeName
  | int
  | void
  /-- Any other name, kept as written. -/
  | other (name : String)
deriving DecidableEq, Inhabited

/-- The operators that stand in front of one operand. -/
inductive UnaryOp
  /-- The negative, written `-x`. -/
  | neg
  /-- The logical negation, written `!x`. -/
  | not
  /-- The bitwise complement, written `~x`. -/
  | complement
deriving DecidableEq, Inhabited

/-- The operators that stand between two operands. -/
inductive BinaryOp
  | add
  | sub
  | mul
  /-- Division can be written and is refused. -/
  | div
  /-- The remainder can be written and is refused. -/
  | rem
  | bitAnd
  | bitOr
  | bitXor
  | shl
  | shr
  /-- The shift written `>>>` is refused: `shr` is already the one on unsigned words. -/
  | ushr
  | eq
  | ne
  | lt
  | le
  | gt
  | ge
  /-- Conjunction, whose right operand is evaluated only when the left one is not zero. -/
  | and
  /-- Disjunction, whose right operand is evaluated only when the left one is zero. -/
  | or
deriving DecidableEq, Inhabited

/-- Only two operators may leave their right operand alone. -/
theorem BinaryOp.forms (op : BinaryOp) : op = .and ∨ op = .or ∨ (op ≠ .and ∧ op ≠ .or) := by
  cases op <;> decide

/-- Plain assignment, or one that combines the old value with the new. -/
inductive AssignOp
  | plain
  | compound (op : BinaryOp)
deriving DecidableEq, Inhabited

/-- An expression. -/
inductive Expr
  | int (value : Int64)
  | var (name : String)
  | paren (inner : Expr)
  | unary (op : UnaryOp) (operand : Expr)
  | binary (op : BinaryOp) (lhs rhs : Expr)
  | assign (op : AssignOp) (target : String) (value : Expr)
  | call (name : String) (args : List Expr) (receiver : Option Expr) (typeArgs : List TypeName)
deriving Inhabited

/-- A call taken out of the expression it is. -/
structure Call where
  name : String
  args : List Expr
  receiver : Option Expr
  typeArgs : List TypeName
deriving Inhabited

/-- The expression that a call is. -/
def Call.toExpr (call : Call) : Expr :=
  .call call.name call.args call.receiver call.typeArgs

/-- One name of a local declaration and its initial value. -/
structure Declarator where
  name : String
  init : Option Expr
deriving Inhabited

/-- A local declaration. -/
structure VarDecl where
  type : TypeName
  modifiers : List String
  declarators : List Declarator
deriving Inhabited

/-- A statement. -/
inductive Stmt
  | block (body : List Stmt)
  | expr (value : Expr)
  | declare (decl : VarDecl)
  | branch (cond : Expr) (yes : Stmt) (no : Option Stmt)
  | loop (cond : Expr) (body : Stmt)
  | ret (value : Option Expr)
deriving Inhabited

/-- A formal parameter. -/
structure Param where
  name : String
  type : TypeName
deriving DecidableEq, Inhabited

/-- A function with all that can be written in front of its body. -/
structure FunctionDecl where
  name : String
  params : List Param
  returnType : TypeName
  body : List Stmt
  modifiers : List String
  typeParams : List String
  throws : List String
deriving Inhabited

/-- A program: its functions in the order in which they are declared. -/
structure Program where
  functions : List FunctionDecl
deriving Inhabited

end GridStack
