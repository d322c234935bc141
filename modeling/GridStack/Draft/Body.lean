import GridStack.Draft.Emitter

/-!
# The code of expressions and statements

The code of an expression leaves one word on the stack, and the code of a statement leaves the stack as
it was. The order of labels and of errors follows the tree: names are looked up before operands are
generated, labels of a branch are taken one by one as they are needed.
-/

namespace GridStack

namespace Emit

/-- The code of an operator whose two operands are on the stack. Operators that the machine does not have
are composed: `a - b` is `a + -b`, `a <= b` is `a < b + 1`, and `a != b`, `a > b` and `a >= b` are the
negations of `a == b`, `a <= b` and `a < b`. -/
def binary (site : Site) (construct : Expr) : BinaryOp → Emit Unit
  | .bitOr => plain site .or
  | .bitAnd => plain site .and
  | .bitXor => plain site .xor
  | .shl => plain site .lshift
  | .shr => plain site .rshift
  | .add => plain site .add
  | .mul => plain site .mult
  | .eq => plain site .equals
  | .lt => plain site .lessThan
  | .sub => do
    negate site
    plain site .add
  | .ne => do
    plain site .equals
    isZero site
  | .le => do
    increment site
    plain site .lessThan
  | .gt => do
    increment site
    plain site .lessThan
    isZero site
  | .ge => do
    plain site .lessThan
    isZero site
  | .and | .or | .div | .rem | .ushr => refuse site (.expr construct)

/-- The code of an operator whose operand is on the stack. -/
def unary (site : Site) : UnaryOp → Emit Unit
  | .neg => negate site
  | .not => isZero site
  | .complement => plain site .not

/-- Finds the function that a call is for, and checks that the call fits it. -/
def callee (site : Site) (call : Call) (asValue : Bool) : Emit Callee :=
  match site.table.find? call.name with
  | none => fail (.undeclaredFunction site.function.name call)
  | some f =>
    if asValue ∧ ¬ f.returnsValue then
      fail (.shape site.function.name (.call call) (.voidValue call.name))
    else if call.args.length ≠ f.params then
      fail (.arity site.function.name call f.params)
    else
      pure f

/-- The registers of the variables of the function. -/
def window (site : Site) : List Int32 :=
  (List.range site.function.vars.length).map Register.ofVar

/-- The first half of a call: the variables are saved, the last one first, then the address to come back
to and the base of the frame. It gives that address and the offset of the first argument. -/
def callBegin (site : Site) : Emit (Label × Int) := do
  each site .push (window site).reverse
  let resume ← fresh
  instr site (.constant (.label resume))
  imm site .push Register.base
  let offset ← depth
  return (resume, offset)

/-- The second half of a call, behind the arguments: the base moves to the first argument, control goes
to the callee, and when it is back the variables are restored. The callee has taken the arguments and the
two words below them from the stack. -/
def callEnd (site : Site) (f : Callee) (resume : Label) (offset : Int) : Emit Unit := do
  imm site .push Register.base
  imm site .const (Int32.ofInt offset)
  plain site .add
  imm site .pop Register.base
  jump site (.label f.entry)
  mark site resume
  adjust (-(f.params + frameWords))
  each site .pop (window site)

mutual

/-- The code of an expression. -/
def expr (site : Site) : Expr → Emit Unit
  | .paren inner => expr site inner
  | .int n =>
    match literalWord? n with
    | some word => imm site .const word
    | none => fail (.literalRange site.function.name n)
  | .var name => do
    let r ← register site name
    imm site .push r
  | .unary op operand => do
    expr site operand
    unary site op
  | .binary .and lhs rhs => do
    let halfway ← fresh
    let done ← fresh
    expr site lhs
    jumpIfZero site halfway
    expr site rhs
    jump site (.label done)
    mark site halfway
    imm site .const 0
    mark site done
    -- one of the two arms runs, both were counted
    adjust (-1)
  | .binary .or lhs rhs => do
    let halfway ← fresh
    let done ← fresh
    expr site lhs
    jumpIfZero site halfway
    imm site .const 1
    jump site (.label done)
    mark site halfway
    expr site rhs
    mark site done
    adjust (-1)
  | .binary op lhs rhs => do
    expr site lhs
    expr site rhs
    binary site (.binary op lhs rhs) op
  | .call name args receiver typeArgs =>
    let call : Call := ⟨name, args, receiver, typeArgs⟩
    if name = inputName then
      if args.length ≠ 2 then
        refuse site (.call call)
      else do
        exprs site args
        plain site .input
        imm site .push Register.scratch
    else if name = outputName then
      refuse site (.call call)
    else do
      let f ← callee site call true
      let (resume, offset) ← callBegin site
      exprs site args
      callEnd site f resume offset
      imm site .push Register.scratch
  | .assign op target value => refuse site (.expr (.assign op target value))

/-- The code of expressions from left to right. -/
def exprs (site : Site) : List Expr → Emit Unit
  | [] => pure ()
  | e :: es => do
    expr site e
    exprs site es

end

/-- The code of an assignment. -/
def assignment (site : Site) (name : String) (value : Expr) : Emit Unit := do
  let r ← register site name
  expr site value
  imm site .pop r

/-- The code of an expression that is a statement. In a write the coordinates stay on the stack and the
value goes through the scratch register. -/
def effect (site : Site) : Expr → Emit Unit
  | .assign _ target value => assignment site target value
  | .call name args receiver typeArgs =>
    let call : Call := ⟨name, args, receiver, typeArgs⟩
    if name = outputName then
      if args.length ≠ 3 then
        refuse site (.call call)
      else do
        exprs site args
        imm site .pop Register.scratch
        plain site .output
    else if name = inputName then
      refuse site (.stmt (.expr call.toExpr))
    else do
      let f ← callee site call false
      let (resume, offset) ← callBegin site
      exprs site args
      callEnd site f resume offset
  | other => refuse site (.stmt (.expr other))

/-- The code of a local declaration is that of an assignment. -/
def declaration (site : Site) (decl : VarDecl) : Emit Unit :=
  match decl.declarators with
  | [⟨name, some init⟩] => assignment site name init
  | _ => refuse site (.stmt (.declare decl))

/-- The code that leaves a result in the scratch register. -/
def result (site : Site) : Option Expr → Emit Unit
  | none => pure ()
  | some value => do
    expr site value
    imm site .pop Register.scratch

mutual

/-- The code of a statement. -/
def stmt (site : Site) : Stmt → Emit Unit
  | .block body => stmts site body
  | .expr value => effect site value
  | .declare decl => declaration site decl
  | .branch cond yes no => do
    let otherwise ← fresh
    expr site cond
    jumpIfZero site otherwise
    stmt site yes
    alternative site otherwise no
  | .loop cond body => do
    let start ← fresh
    let done ← fresh
    mark site start
    expr site cond
    jumpIfZero site done
    stmt site body
    jump site (.label start)
    mark site done
  | .ret value => do
    result site value
    jump site (.label site.exit)

/-- The code of statements in their order. -/
def stmts (site : Site) : List Stmt → Emit Unit
  | [] => pure ()
  | s :: rest => do
    stmt site s
    stmts site rest

/-- What follows the first arm of a branch: the label reached when the condition is zero, with the second
arm behind it if there is one. -/
def alternative (site : Site) (otherwise : Label) : Option Stmt → Emit Unit
  | none => mark site otherwise
  | some no => do
    let done ← fresh
    jump site (.label done)
    mark site otherwise
    stmt site no
    mark site done

end

end Emit

end GridStack
