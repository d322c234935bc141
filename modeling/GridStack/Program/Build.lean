import GridStack.Program.Tree

/-!
# Building trees

Short forms for the shapes that an accepted program is made of: undecorated functions over `int`,
one name to a declaration, blocks as the bodies of branches and loops.
-/

namespace GridStack

namespace Expr

/-- The assignment `target = value`. -/
def set (target : String) (value : Expr) : Expr :=
  .assign .plain target value

/-- The call `name(args)`. -/
def apply (name : String) (args : List Expr) : Expr :=
  .call name args none []

end Expr

namespace Stmt

/-- The declaration `int name = init;`. -/
def declareInt (name : String) (init : Expr) : Stmt :=
  .declare ⟨.int, [], [⟨name, some init⟩]⟩

/-- The statement `name = value;`. -/
def set (name : String) (value : Expr) : Stmt :=
  .expr (.set name value)

/-- The statement `name(args);`. -/
def apply (name : String) (args : List Expr) : Stmt :=
  .expr (.apply name args)

/-- A branch without an alternative. -/
def ifThen (cond : Expr) (yes : List Stmt) : Stmt :=
  .branch cond (.block yes) none

/-- A branch with an alternative. -/
def ifElse (cond : Expr) (yes no : List Stmt) : Stmt :=
  .branch cond (.block yes) (some (.block no))

/-- A loop over a block. -/
def whileDo (cond : Expr) (body : List Stmt) : Stmt :=
  .loop cond (.block body)

/-- The statement `return value;`. -/
def give (value : Expr) : Stmt :=
  .ret (some value)

end Stmt

/-- A parameter of type `int`. -/
def Param.int (name : String) : Param :=
  ⟨name, .int⟩

namespace FunctionDecl

/-- A function without decoration. -/
def plain (name : String) (params : List Param) (returnType : TypeName) (body : List Stmt) :
    FunctionDecl :=
  { name, params, returnType, body, modifiers := [], typeParams := [], throws := [] }

/-- A `void` function of `int` parameters. -/
def procedure (name : String) (params : List String) (body : List Stmt) : FunctionDecl :=
  plain name (params.map Param.int) .void body

/-- An `int` function of `int` parameters. -/
def function (name : String) (params : List String) (body : List Stmt) : FunctionDecl :=
  plain name (params.map Param.int) .int body

end FunctionDecl

end GridStack
