import GridStack.Draft.Routine
import GridStack.Proofs.Lowered

/-!
# The code of each tree

What code a tree has, as relations between trees and lists of instructions with a rule for each form.
`ExprCode site depth next e block` is read: at a place where `depth` words are on the stack and labels are
free from `next` on, the code of `e` is `block`. That a name is declared, that a literal is in range, and
whatever else generation asks for, is a condition of the rule.

The relations leave the order of generation behind: a rule says at once where a label stands that was
taken before the code in front of it. Blocks that are put together are written `a ++ (b ++ c)`.
-/

namespace GridStack

namespace Code

/-- A jump. -/
def jump (target : Operand) : List Instr :=
  [.constant target, .imm .pop Register.pc]

/-- A jump that is made when the word on the stack is zero. -/
def jumpIfZero (target : Label) : List Instr :=
  [.constant (.label target), .imm .pop Register.scratch, .imm .jumpIf Register.scratch]

/-- The code behind the operand of an operator. -/
def unary : UnaryOp → List Instr
  | .neg => [.imm .const maxWord, .plain .mult]
  | .not => [.imm .const 0, .plain .equals]
  | .complement => [.plain .not]

/-- The code behind the two operands of an operator, if the machine has one. -/
def binary? : BinaryOp → Option (List Instr)
  | .bitOr => some [.plain .or]
  | .bitAnd => some [.plain .and]
  | .bitXor => some [.plain .xor]
  | .shl => some [.plain .lshift]
  | .shr => some [.plain .rshift]
  | .add => some [.plain .add]
  | .mul => some [.plain .mult]
  | .eq => some [.plain .equals]
  | .lt => some [.plain .lessThan]
  | .sub => some [.imm .const maxWord, .plain .mult, .plain .add]
  | .ne => some [.plain .equals, .imm .const 0, .plain .equals]
  | .le => some [.imm .const 1, .plain .add, .plain .lessThan]
  | .gt => some [.imm .const 1, .plain .add, .plain .lessThan, .imm .const 0, .plain .equals]
  | .ge => some [.plain .lessThan, .imm .const 0, .plain .equals]
  | .and | .or | .div | .rem | .ushr => none

/-- The code of a call in front of the arguments: the variables, the address to come back to and the base
are put on the stack. -/
def save (site : Site) (resume : Label) : List Instr :=
  (Emit.window site).reverse.map (.imm .push) ++ [.constant (.label resume), .imm .push Register.base]

/-- The code of a call behind the arguments: the base is moved, and control goes to the callee. -/
def enter (offset : Int) (entry : Label) : List Instr :=
  [.imm .push Register.base, .imm .const (Int32.ofInt offset), .plain .add, .imm .pop Register.base]
    ++ jump (.label entry)

/-- The code of a call behind the callee: the variables are restored. -/
def restore (site : Site) : List Instr :=
  (Emit.window site).map (.imm .pop)

/-- The code that moves the word on the stack into a register, put behind other code. -/
def store (fuse : Bool) (block : List Instr) (r : Int32) : List Instr :=
  (Draft.append fuse (.imm .pop r) block.reverse).reverse

/-- The code in front of the body of a function, which takes the arguments off the stack. -/
def take (site : Site) : List Instr :=
  ((List.range site.function.params).map Register.ofVar).reverse.map (.imm .pop)

/-- The code behind the body of a function. -/
def leave (site : Site) : List Instr :=
  if site.function.isMain then jump (.imm halt) else [.imm .pop Register.base, .imm .pop Register.pc]

end Code

variable (site : Site)

mutual

/-- The code of an expression. -/
inductive ExprCode : (depth : Int) → (next : Nat) → Expr → List Instr → Prop
  | int {depth : Int} {next : Nat} {n : Int64} {word : Int32} (fits : literalWord? n = some word) :
      ExprCode depth next (.int n) [.imm .const word]
  | var {depth : Int} {next : Nat} {name : String} {index : Nat}
      (declared : site.function.variableIndex? name = some index) :
      ExprCode depth next (.var name) [.imm .push (Register.ofVar index)]
  | paren {depth : Int} {next : Nat} {e : Expr} {block : List Instr}
      (inner : ExprCode depth next e block) : ExprCode depth next (.paren e) block
  | unary {depth : Int} {next : Nat} {op : UnaryOp} {e : Expr} {block : List Instr}
      (operand : ExprCode depth next e block) :
      ExprCode depth next (.unary op e) (block ++ Code.unary op)
  | binary {depth : Int} {next : Nat} {op : BinaryOp} {lhs rhs : Expr} {first second tail : List Instr}
      (known : Code.binary? op = some tail)
      (left : ExprCode depth next lhs first)
      (right : ExprCode (depth + 1) (next + lhs.labels) rhs second) :
      ExprCode depth next (.binary op lhs rhs) (first ++ (second ++ tail))
  | and {depth : Int} {next : Nat} {lhs rhs : Expr} {first second : List Instr}
      (left : ExprCode depth (next + 2) lhs first)
      (right : ExprCode depth (next + 2 + lhs.labels) rhs second) :
      ExprCode depth next (.binary .and lhs rhs)
        (first ++ (Code.jumpIfZero ⟨next⟩ ++ (second ++ (Code.jump (.label ⟨next + 1⟩) ++
          [.marker ⟨next⟩, .imm .const 0, .marker ⟨next + 1⟩]))))
  | or {depth : Int} {next : Nat} {lhs rhs : Expr} {first second : List Instr}
      (left : ExprCode depth (next + 2) lhs first)
      (right : ExprCode (depth + 1) (next + 2 + lhs.labels) rhs second) :
      ExprCode depth next (.binary .or lhs rhs)
        (first ++ (Code.jumpIfZero ⟨next⟩ ++ ([.imm .const 1] ++ (Code.jump (.label ⟨next + 1⟩) ++
          ([.marker ⟨next⟩] ++ (second ++ [.marker ⟨next + 1⟩]))))))
  | input {depth : Int} {next : Nat} {args : List Expr} {receiver : Option Expr}
      {typeArgs : List TypeName} {block : List Instr}
      (arity : args.length = 2)
      (values : ExprsCode depth next args block) :
      ExprCode depth next (.call inputName args receiver typeArgs)
        (block ++ [.plain .input, .imm .push Register.scratch])
  | call {depth : Int} {next : Nat} {name : String} {args : List Expr} {receiver : Option Expr}
      {typeArgs : List TypeName} {callee : Callee} {block : List Instr}
      (user : name ≠ inputName)
      (found : site.table.find? name = some callee)
      (value : callee.returnsValue = true)
      (call : CallCode depth next callee args block) :
      ExprCode depth next (.call name args receiver typeArgs)
        (block ++ [.imm .push Register.scratch])

/-- The code of expressions from left to right. -/
inductive ExprsCode : (depth : Int) → (next : Nat) → List Expr → List Instr → Prop
  | nil {depth : Int} {next : Nat} : ExprsCode depth next [] []
  | cons {depth : Int} {next : Nat} {e : Expr} {es : List Expr} {first rest : List Instr}
      (head : ExprCode depth next e first)
      (tail : ExprsCode (depth + 1) (next + e.labels) es rest) :
      ExprsCode depth next (e :: es) (first ++ rest)

/-- The code of a call, from the first variable that is saved to the last one that is restored. -/
inductive CallCode : (depth : Int) → (next : Nat) → Callee → List Expr → List Instr → Prop
  | mk {depth : Int} {next : Nat} {callee : Callee} {args : List Expr} {block : List Instr}
      (arity : args.length = callee.params)
      (values : ExprsCode (depth + site.function.vars.length + frameWords) (next + 1) args block) :
      CallCode depth next callee args
        (Code.save site ⟨next⟩ ++ (block ++
          (Code.enter (depth + site.function.vars.length + frameWords) callee.entry ++
            ([.marker ⟨next⟩] ++ Code.restore site))))

end

/-- The code that moves the value of an expression into a register. -/
inductive StoreCode (depth : Int) (next : Nat) (e : Expr) (r : Int32) : List Instr → Prop
  | mk {block : List Instr} (value : ExprCode site depth next e block) :
      StoreCode depth next e r (Code.store site.fuse block r)

/-- The code of an expression that is a statement. -/
inductive EffectCode (depth : Int) (next : Nat) : Expr → List Instr → Prop
  | assign {op : AssignOp} {target : String} {value : Expr} {index : Nat} {block : List Instr}
      (declared : site.function.variableIndex? target = some index)
      (store : StoreCode site depth next value (Register.ofVar index) block) :
      EffectCode depth next (.assign op target value) block
  | output {x y value : Expr} {receiver : Option Expr} {typeArgs : List TypeName}
      {first second third : List Instr}
      (abscissa : ExprCode site depth next x first)
      (ordinate : ExprCode site (depth + 1) (next + x.labels) y second)
      (store : StoreCode site (depth + 1 + 1) (next + x.labels + y.labels) value Register.scratch third) :
      EffectCode depth next (.call outputName [x, y, value] receiver typeArgs)
        (first ++ (second ++ (third ++ [.plain .output])))
  | call {name : String} {args : List Expr} {receiver : Option Expr} {typeArgs : List TypeName}
      {callee : Callee} {block : List Instr}
      (user : name ≠ outputName)
      (found : site.table.find? name = some callee)
      (call : CallCode site depth next callee args block) :
      EffectCode depth next (.call name args receiver typeArgs) block

mutual

/-- The code of a statement. -/
inductive StmtCode : (depth : Int) → (next : Nat) → Stmt → List Instr → Prop
  | block {depth : Int} {next : Nat} {body : List Stmt} {block : List Instr}
      (stmts : StmtsCode depth next body block) : StmtCode depth next (.block body) block
  | expr {depth : Int} {next : Nat} {e : Expr} {block : List Instr}
      (effect : EffectCode site depth next e block) : StmtCode depth next (.expr e) block
  | declare {depth : Int} {next : Nat} {type : TypeName} {modifiers : List String} {name : String}
      {init : Expr} {index : Nat} {block : List Instr}
      (declared : site.function.variableIndex? name = some index)
      (store : StoreCode site depth next init (Register.ofVar index) block) :
      StmtCode depth next (.declare ⟨type, modifiers, [⟨name, some init⟩]⟩) block
  | branch {depth : Int} {next : Nat} {cond : Expr} {yes : Stmt} {no : Option Stmt}
      {first second third : List Instr}
      (test : ExprCode site depth (next + 1) cond first)
      (arm : StmtCode depth (next + 1 + cond.labels) yes second)
      (other : AlternativeCode depth (next + 1 + cond.labels + yes.labels) ⟨next⟩ no third) :
      StmtCode depth next (.branch cond yes no)
        (first ++ (Code.jumpIfZero ⟨next⟩ ++ (second ++ third)))
  | loop {depth : Int} {next : Nat} {cond : Expr} {body : Stmt} {first second : List Instr}
      (test : ExprCode site depth (next + 2) cond first)
      (round : StmtCode depth (next + 2 + cond.labels) body second) :
      StmtCode depth next (.loop cond body)
        ([.marker ⟨next⟩] ++ (first ++ (Code.jumpIfZero ⟨next + 1⟩ ++ (second ++
          (Code.jump (.label ⟨next⟩) ++ [.marker ⟨next + 1⟩])))))
  | leave {depth : Int} {next : Nat} :
      StmtCode depth next (.ret none) (Code.jump (.label site.exit))
  | ret {depth : Int} {next : Nat} {value : Expr} {block : List Instr}
      (store : StoreCode site depth next value Register.scratch block) :
      StmtCode depth next (.ret (some value)) (block ++ Code.jump (.label site.exit))

/-- The code of statements in their order. -/
inductive StmtsCode : (depth : Int) → (next : Nat) → List Stmt → List Instr → Prop
  | nil {depth : Int} {next : Nat} : StmtsCode depth next [] []
  | cons {depth : Int} {next : Nat} {s : Stmt} {rest : List Stmt} {first back : List Instr}
      (head : StmtCode depth next s first)
      (tail : StmtsCode depth (next + s.labels) rest back) :
      StmtsCode depth next (s :: rest) (first ++ back)

/-- The code behind the first arm of a branch. -/
inductive AlternativeCode : (depth : Int) → (next : Nat) → Label → Option Stmt → List Instr → Prop
  | none {depth : Int} {next : Nat} {otherwise : Label} :
      AlternativeCode depth next otherwise none [.marker otherwise]
  | some {depth : Int} {next : Nat} {otherwise : Label} {no : Stmt} {block : List Instr}
      (arm : StmtCode depth (next + 1) no block) :
      AlternativeCode depth next otherwise (some no)
        (Code.jump (.label ⟨next⟩) ++ ([.marker otherwise] ++ (block ++ [.marker ⟨next⟩])))

end

/-- The code of a function, of which the body has labels from `next` on. -/
inductive FunctionCode (next : Nat) (entry : Label) : List Instr → Prop
  | mk {block : List Instr} (body : StmtsCode site 0 next site.function.body block) :
      FunctionCode next entry
        ([.marker entry] ++ (Code.take site ++ (block ++ ([.marker site.exit] ++ Code.leave site))))

/-- The code of a function begins at its entry. -/
theorem FunctionCode.starts {site : Site} {next : Nat} {entry : Label} {block : List Instr}
    (h : FunctionCode site next entry block) : ∃ back, block = .marker entry :: back := by
  obtain ⟨body⟩ := h
  exact ⟨_, rfl⟩

end GridStack
