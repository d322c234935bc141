import GridStack.Program.Tree

/-!
# The written form of a tree

Every node has one line of text in the notation that the tree was read from. Parentheses are nodes of
their own, so nothing is added for precedence. A function shows its header only, and without its type
parameters.
-/

namespace GridStack

namespace TypeName

/-- The name of a type. -/
def text : TypeName → String
  | int => "int"
  | void => "void"
  | other name => name

end TypeName

namespace UnaryOp

/-- The sign of an operator. -/
def text : UnaryOp → String
  | neg => "-"
  | not => "!"
  | complement => "~"

end UnaryOp

namespace BinaryOp

/-- The sign of an operator. -/
def text : BinaryOp → String
  | add => "+"
  | sub => "-"
  | mul => "*"
  | div => "/"
  | rem => "%"
  | bitAnd => "&"
  | bitOr => "|"
  | bitXor => "^"
  | shl => "<<"
  | shr => ">>"
  | ushr => ">>>"
  | eq => "=="
  | ne => "!="
  | lt => "<"
  | le => "<="
  | gt => ">"
  | ge => ">="
  | and => "&&"
  | or => "||"

end BinaryOp

namespace AssignOp

/-- The sign of an assignment; a compound one has the operator in front of the equals sign. -/
def text : AssignOp → String
  | plain => "="
  | compound op => op.text ++ "="

end AssignOp

/-- Items of a list with a comma and a blank between them. -/
def commaSeparated (items : List String) : String :=
  String.intercalate ", " items

/-- Type arguments in angle brackets, nothing when there are none. -/
def typeArgsText : List TypeName → String
  | [] => ""
  | ty :: tys => "<" ++ commaSeparated ((ty :: tys).map TypeName.text) ++ ">"

mutual

/-- The text of an expression. -/
def Expr.text : Expr → String
  | .int value => toString value.toInt
  | .var name => name
  | .paren inner => "(" ++ inner.text ++ ")"
  | .unary op operand => op.text ++ operand.text
  | .binary op lhs rhs => lhs.text ++ " " ++ op.text ++ " " ++ rhs.text
  | .assign op target value => target ++ " " ++ op.text ++ " " ++ value.text
  | .call name args receiver typeArgs =>
    Expr.receiverText receiver ++ typeArgsText typeArgs ++ name
      ++ "(" ++ commaSeparated (Expr.texts args) ++ ")"

/-- The texts of several expressions. -/
def Expr.texts : List Expr → List String
  | [] => []
  | e :: es => e.text :: Expr.texts es

/-- What stands in front of a called name: the receiver and a dot, if there is one. -/
def Expr.receiverText : Option Expr → String
  | none => ""
  | some object => object.text ++ "."

end

namespace Declarator

/-- The name, with its initial value where there is one. -/
def text (declarator : Declarator) : String :=
  match declarator.init with
  | none => declarator.name
  | some init => declarator.name ++ " = " ++ init.text

end Declarator

/-- Modifiers, each with a blank after it. -/
def modifierText (modifiers : List String) : String :=
  String.join (modifiers.map (· ++ " "))

namespace VarDecl

/-- The text of a declaration, without its semicolon. -/
def text (decl : VarDecl) : String :=
  modifierText decl.modifiers ++ decl.type.text ++ " "
    ++ commaSeparated (decl.declarators.map Declarator.text)

end VarDecl

mutual

/-- The text of a statement. -/
def Stmt.text : Stmt → String
  | .block body => "\x7b" ++ Stmt.spaced body ++ " \x7d"
  | .expr value => value.text ++ ";"
  | .declare decl => decl.text ++ ";"
  | .branch cond yes no => "if (" ++ cond.text ++ ") " ++ yes.text ++ Stmt.alternativeText no
  | .loop cond body => "while (" ++ cond.text ++ ") " ++ body.text
  | .ret none => "return;"
  | .ret (some value) => "return " ++ value.text ++ ";"

/-- Statements in a row, each with a blank in front of it. -/
def Stmt.spaced : List Stmt → String
  | [] => ""
  | s :: rest => " " ++ s.text ++ Stmt.spaced rest

/-- What follows the first arm of a branch. -/
def Stmt.alternativeText : Option Stmt → String
  | none => ""
  | some other => " else " ++ other.text

end

namespace Param

/-- The type and the name of a parameter. -/
def text (param : Param) : String :=
  param.type.text ++ " " ++ param.name

end Param

/-- The clause that names declared exceptions, nothing when there are none. -/
def throwsText : List String → String
  | [] => ""
  | name :: names => " throws " ++ commaSeparated (name :: names)

namespace FunctionDecl

/-- The header of a function. -/
def text (decl : FunctionDecl) : String :=
  modifierText decl.modifiers ++ decl.returnType.text ++ " " ++ decl.name
    ++ "(" ++ commaSeparated (decl.params.map Param.text) ++ ")" ++ throwsText decl.throws

end FunctionDecl

namespace Call

/-- A call reads as the expression it is. -/
def text (call : Call) : String :=
  call.toExpr.text

end Call

end GridStack
