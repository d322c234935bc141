import GridStack.Link
import GridStack.Machine.Step

/-!
# The meaning of a program on registers

`Lowered.run` evaluates a program the way its code does, by recursion on the tree: the variables of all
functions share the registers, a call saves the registers of its caller and puts them back, and results,
written values and jump targets pass through the scratch register. Nothing is said of the stack, of
positions or of fusion.

What a conditional jump leaves in the scratch register is the address of its label, which only the image
knows. `World.residue` gives it for each label, and `none` leaves it open: then an evaluation that would
use it is stuck. For this the evaluation counts labels as the generation of code does, from the number of
the next label on.

Fuel bounds the depth of calls and the rounds of each loop. An evaluation that runs out of it stops with
`timeout`, and `main` stops with `halted`, also when it was called.
-/

namespace GridStack

mutual

/-- The number of labels that the code of an expression takes. -/
def Expr.labels : Expr → Nat
  | .int _ => 0
  | .var _ => 0
  | .paren inner => inner.labels
  | .unary _ operand => operand.labels
  | .binary op lhs rhs => (if op = .and ∨ op = .or then 2 else 0) + lhs.labels + rhs.labels
  | .assign _ _ _ => 0
  | .call name args _ _ => (if name = inputName then 0 else 1) + Expr.labelsOfAll args

/-- The number of labels that the code of expressions takes. -/
def Expr.labelsOfAll : List Expr → Nat
  | [] => 0
  | e :: es => e.labels + Expr.labelsOfAll es

end

/-- The number of labels that the code of an expression takes when it is a statement. -/
def Expr.effectLabels : Expr → Nat
  | .assign _ _ value => value.labels
  | .call name args _ _ => (if name = outputName then 0 else 1) + Expr.labelsOfAll args
  | _ => 0

/-- The number of labels that the code of a local declaration takes. -/
def VarDecl.labels (decl : VarDecl) : Nat :=
  match decl.declarators with
  | [⟨_, some init⟩] => init.labels
  | _ => 0

/-- The number of labels that the code of a result takes. -/
def Expr.resultLabels : Option Expr → Nat
  | none => 0
  | some value => value.labels

mutual

/-- The number of labels that the code of a statement takes. -/
def Stmt.labels : Stmt → Nat
  | .block body => Stmt.labelsOfAll body
  | .expr value => value.effectLabels
  | .declare decl => decl.labels
  | .branch cond yes no => 1 + cond.labels + yes.labels + Stmt.alternativeLabels no
  | .loop cond body => 2 + cond.labels + body.labels
  | .ret value => Expr.resultLabels value

/-- The number of labels that the code of statements takes. -/
def Stmt.labelsOfAll : List Stmt → Nat
  | [] => 0
  | s :: rest => s.labels + Stmt.labelsOfAll rest

/-- The number of labels that the second arm of a branch takes. -/
def Stmt.alternativeLabels : Option Stmt → Nat
  | none => 0
  | some s => 1 + s.labels

end

/-- The number of labels that the code of a function takes beside its entry: one behind the body, and those
of the body. -/
def CheckedFunction.labels (f : CheckedFunction) : Nat :=
  1 + Stmt.labelsOfAll f.body

/-- What the code of an operator in front of one operand does to it. -/
def UnaryOp.lowered : UnaryOp → Int64 → Int64
  | .neg, x => wrap (x * 65535)
  | .not, x => truth (x = 0)
  | .complement, x => wrap (~~~x)

/-- What the code of an operator does to its two operands, none when there is no code for it. -/
def BinaryOp.lowered? : BinaryOp → Option (Int64 → Int64 → Int64)
  | .add => some fun x y => wrap (x + y)
  | .sub => some fun x y => wrap (x + wrap (y * 65535))
  | .mul => some fun x y => wrap (x * y)
  | .bitAnd => some fun x y => x &&& y
  | .bitOr => some fun x y => x ||| y
  | .bitXor => some fun x y => x ^^^ y
  | .shl => some shiftLeft
  | .shr => some shiftRight
  | .eq => some fun x y => truth (x = y)
  | .ne => some fun x y => truth (truth (x = y) = 0)
  | .lt => some fun x y => truth (x < y)
  | .le => some fun x y => truth (x < wrap (y + 1))
  | .gt => some fun x y => truth (truth (x < wrap (y + 1)) = 0)
  | .ge => some fun x y => truth (truth (x < y) = 0)
  | .and | .or | .div | .rem | .ushr => none

/-- The registers that a function works with, and what has been written. A register without a value has
an unknown content. -/
structure Cells where
  /-- The registers of variables by the index of the variable. -/
  vars : Nat → Option Int64
  scratch : Option Int64
  /-- The writes, the last one first. -/
  log : List Write

/-- The registers of a machine that has not run. -/
def Cells.initial : Cells where
  vars := fun _ => some 0
  scratch := some 0
  log := []

namespace Lowered

/-- Why an evaluation ends before it has a value. -/
inductive Stop
  /-- The end of `main` was reached. -/
  | halted
  /-- An unknown content was used, or the tree is one that no code is generated for. -/
  | stuck
  /-- The fuel is used up. -/
  | timeout
deriving DecidableEq

/-- The end of an evaluation. -/
inductive Outcome (α : Type)
  | value (result : α) (cells : Cells)
  | stop (reason : Stop) (log : List Write)

end Lowered

/-- Evaluation on registers. -/
def Lowered (α : Type) : Type :=
  Cells → Lowered.Outcome α

namespace Lowered

/-- One evaluation behind another. -/
def andThen {α β : Type} (x : Lowered α) (f : α → Lowered β) : Lowered β := fun cells =>
  match x cells with
  | .value result cells => f result cells
  | .stop reason log => .stop reason log

/-- Evaluations follow one another, each on the registers that the one before has left. -/
instance : Monad Lowered where
  pure result := fun cells => .value result cells
  bind := andThen

section Monad

variable {α β γ : Type} (x : Lowered α)

/-- Some registers lead to a value. -/
def Yields (result : α) : Prop :=
  ∃ cells after, x cells = .value result after

/-- Two evaluations that have a value together have values one by one. -/
theorem bind_value {x : Lowered α} {f : α → Lowered β} {result : β} {cells after : Cells}
    (h : (x >>= f) cells = .value result after) :
    ∃ between mid, x cells = .value between mid ∧ f between mid = .value result after := by
  change andThen x f cells = .value result after at h
  unfold andThen at h
  cases hx : x cells with
  | value between mid =>
    rw [hx] at h
    exact ⟨between, mid, rfl, h⟩
  | stop reason log =>
    rw [hx] at h
    contradiction

/-- Nothing behind an evaluation. -/
theorem bind_pure : x >>= pure = x := by
  funext cells
  show andThen x pure cells = x cells
  unfold andThen
  cases x cells <;> rfl

/-- Three evaluations one behind the other. -/
theorem bind_assoc (f : α → Lowered β) (g : β → Lowered γ) :
    x >>= f >>= g = x >>= fun result => f result >>= g := by
  funext cells
  show andThen (andThen x f) g cells = andThen x (fun result => andThen (f result) g) cells
  unfold andThen
  cases x cells <;> rfl

end Monad

/-- What an evaluation depends on beside the registers. -/
structure World where
  /-- Each function with the number of the label behind its body. -/
  find? : String → Option (CheckedFunction × Nat)
  grid : Grid
  /-- What a conditional jump to a label leaves in the scratch register. -/
  residue : Nat → Option Int64

/-- The functions with the numbers of the labels behind their bodies, when code is generated for them in
this order with labels from `next` on. -/
def numbered : List CheckedFunction → (next : Nat) → List (String × CheckedFunction × Nat)
  | [], _ => []
  | f :: fs, next => (f.name, f, next) :: numbered fs (next + 1 + Stmt.labelsOfAll f.body)

section Numbered

variable {functions : List CheckedFunction} {next : Nat} {name : String}

/-- Every function has a number. -/
theorem exists_lookup_numbered (h : ∃ f ∈ functions, f.name = name) :
    ∃ f exit, (numbered functions next).lookup name = some (f, exit) := by
  obtain ⟨f, mem, eq⟩ := h
  induction functions generalizing next with
  | nil => contradiction
  | cons g gs ih =>
    unfold numbered
    rw [List.lookup_cons]
    split
    · exact ⟨g, next, rfl⟩
    · next other =>
      rcases List.mem_cons.1 mem with rfl | mem
      · rw [eq, beq_self_eq_true] at other
        contradiction
      · exact ih mem

/-- What is found has the name that was asked for. -/
theorem of_lookup_numbered {f : CheckedFunction} {exit : Nat}
    (h : (numbered functions next).lookup name = some (f, exit)) : f ∈ functions ∧ f.name = name := by
  induction functions generalizing next with
  | nil => contradiction
  | cons g gs ih =>
    unfold numbered at h
    rw [List.lookup_cons] at h
    split at h
    · next eq =>
      cases h
      exact ⟨List.mem_cons_self, (eq_of_beq eq).symm⟩
    · obtain ⟨mem, named⟩ := ih h
      exact ⟨List.mem_cons_of_mem g mem, named⟩

/-- What is found is one of the functions with its number. -/
theorem mem_of_lookup_numbered {f : CheckedFunction} {exit : Nat}
    (h : (numbered functions next).lookup name = some (f, exit)) :
    (name, f, exit) ∈ numbered functions next := by
  obtain ⟨before, after, eq, -⟩ := List.lookup_eq_some_iff.1 h
  rw [eq]
  exact List.mem_append_right before List.mem_cons_self

/-- The labels of functions come behind those that were taken before. -/
theorem le_of_mem_numbered {entry : String × CheckedFunction × Nat} (h : entry ∈ numbered functions next) :
    next ≤ entry.2.2 := by
  induction functions generalizing next with
  | nil => contradiction
  | cons f fs ih =>
    rcases List.mem_cons.1 h with rfl | others
    · exact Nat.le_refl _
    · have behind := ih others
      omega

/-- No two functions have a label in common. -/
theorem numbered_apart {a b : String × CheckedFunction × Nat} (ha : a ∈ numbered functions next)
    (hb : b ∈ numbered functions next) {label : Nat}
    (own : a.2.2 ≤ label ∧ label < a.2.2 + a.2.1.labels)
    (own' : b.2.2 ≤ label ∧ label < b.2.2 + b.2.1.labels) : a = b := by
  induction functions generalizing next with
  | nil => contradiction
  | cons f fs ih =>
    unfold CheckedFunction.labels at own own'
    -- The labels of the functions behind the first one come behind all of its own.
    rcases List.mem_cons.1 ha with rfl | ha <;> rcases List.mem_cons.1 hb with rfl | hb
    · rfl
    · have behind := le_of_mem_numbered hb
      dsimp only at own
      omega
    · have behind := le_of_mem_numbered ha
      dsimp only at own'
      omega
    · exact ih ha hb

end Numbered

/-- The world of a program's functions. -/
def World.ofFunctions (functions : List CheckedFunction) (grid : Grid)
    (residue : Nat → Option Int64) : World where
  find? name := (numbered (Program.layoutOrder functions) functions.length).lookup name
  grid := grid
  residue := residue

/-- Ends the evaluation. -/
def stop {α : Type} (reason : Stop) : Lowered α := fun cells =>
  .stop reason cells.log

/-- Uses a content, which has to be known. -/
def use : Option Int64 → Lowered Int64
  | some value => pure value
  | none => stop .stuck

/-- Reads a variable. -/
def readVar (f : CheckedFunction) (name : String) : Lowered Int64 := fun cells =>
  match f.variableIndex? name with
  | some index => use (cells.vars index) cells
  | none => .stop .stuck cells.log

/-- Writes a variable. -/
def writeVar (f : CheckedFunction) (name : String) (value : Int64) : Lowered Unit := fun cells =>
  match f.variableIndex? name with
  | some index =>
    .value () { cells with vars := fun i => if i = index then some value else cells.vars i }
  | none => .stop .stuck cells.log

/-- Uses the content of the scratch register. -/
def readScratch : Lowered Int64 := fun cells =>
  use cells.scratch cells

/-- Writes the scratch register. -/
def writeScratch (value : Option Int64) : Lowered Unit := fun cells =>
  .value () { cells with scratch := value }

/-- Reads a cell of the grid, whose coordinates are given, through the scratch register. -/
def input (w : World) : List Int64 → Lowered Int64
  | [x, y] => do
    writeScratch (some (w.grid.read x y))
    return w.grid.read x y
  | _ => stop .stuck

/-- Writes a value to a cell, both given, through the scratch register. -/
def output : List Int64 → Lowered Unit
  | [x, y, value] => fun cells =>
    .value () { cells with scratch := some value, log := ⟨x, y, value⟩ :: cells.log }
  | _ => stop .stuck

/-- Keeps the registers of the variables of a function over what is done in between. -/
def saving (f : CheckedFunction) (x : Lowered Unit) : Lowered Unit := fun cells =>
  match x cells with
  | .value () after =>
    .value () { after with vars := fun i => if i < f.vars.length then cells.vars i else after.vars i }
  | .stop reason log => .stop reason log

/-- What is kept is put back behind what is done in between. -/
theorem saving_eq (f : CheckedFunction) (x : Lowered Unit) (cells : Cells) :
    saving f x cells = (x >>= fun _ after => .value () { after with
      vars := fun i => if i < f.vars.length then cells.vars i else after.vars i }) cells := by
  show _ = andThen x _ cells
  unfold saving andThen
  cases x cells <;> rfl

/-- Moves the arguments into the registers of the parameters. -/
def enter (f : CheckedFunction) (args : List Int64) : Lowered Unit := fun cells =>
  .value () { cells with vars := fun i => if i < f.params then args[i]? else cells.vars i }

section Body

variable (w : World) (f : CheckedFunction) (call : String → List Int64 → Lowered Unit)

mutual

/-- The value of an expression, whose first label has the number `next`. -/
def expr (next : Nat) : Expr → Lowered Int64
  | .paren inner => expr next inner
  | .int n =>
    match literalWord? n with
    | some word => pure word.toInt64
    | none => stop .stuck
  | .var name => readVar f name
  | .unary op operand => do
    let x ← expr next operand
    return op.lowered x
  | .binary .and lhs rhs => do
    let x ← expr (next + 2) lhs
    writeScratch (w.residue next)
    if x = 0 then return 0 else expr (next + 2 + lhs.labels) rhs
  | .binary .or lhs rhs => do
    let x ← expr (next + 2) lhs
    writeScratch (w.residue next)
    if x = 0 then expr (next + 2 + lhs.labels) rhs else return 1
  | .binary op lhs rhs => do
    let x ← expr next lhs
    let y ← expr (next + lhs.labels) rhs
    match op.lowered? with
    | some f => return f x y
    | none => stop .stuck
  | .call name args _ _ =>
    if name = inputName then do
      let values ← exprs next args
      input w values
    else do
      saving f do
        let values ← exprs (next + 1) args
        call name values
      readScratch
  | .assign _ _ _ => stop .stuck

/-- The values of expressions from left to right. -/
def exprs (next : Nat) : List Expr → Lowered (List Int64)
  | [] => pure []
  | e :: es => do
    let x ← expr next e
    let xs ← exprs (next + e.labels) es
    return x :: xs

end

/-- An operator that evaluates both operands. -/
theorem expr_binary {op : BinaryOp} (conjunction : op ≠ .and) (disjunction : op ≠ .or) (next : Nat)
    (lhs rhs : Expr) :
    expr w f call next (.binary op lhs rhs) = (do
      let x ← expr w f call next lhs
      let y ← expr w f call (next + lhs.labels) rhs
      match op.lowered? with
      | some g => return g x y
      | none => stop .stuck) := by
  cases op <;> first | contradiction | (rw [expr] <;> intro eq <;> contradiction)

/-- The effect of an expression that is a statement. -/
def effect (next : Nat) : Expr → Lowered Unit
  | .assign _ target value => do
    let x ← expr w f call next value
    writeVar f target x
  | .call name args _ _ =>
    if name = outputName then do
      let values ← exprs w f call next args
      output values
    else
      saving f do
        let values ← exprs w f call (next + 1) args
        call name values
  | _ => stop .stuck

/-- The effect of a local declaration. -/
def declaration (next : Nat) (decl : VarDecl) : Lowered Unit :=
  match decl.declarators with
  | [⟨name, some init⟩] => do
    let x ← expr w f call next init
    writeVar f name x
  | _ => stop .stuck

/-- Leaves a result in the scratch register. -/
def result (next : Nat) : Option Expr → Lowered Unit
  | none => pure ()
  | some value => do
    let x ← expr w f call next value
    writeScratch (some x)

end Body

/-- Where control goes behind a statement. -/
inductive Flow
  | onward
  /-- The function is left. -/
  | returned
deriving DecidableEq

/-- The rounds of a loop: the condition, the jump on it, the body. -/
def rounds (cond : Lowered Int64) (leave : Lowered Unit) (body : Lowered Flow) : Nat → Lowered Flow
  | 0 => stop .timeout
  | fuel + 1 => do
    let x ← cond
    leave
    if x = 0 then return .onward
    else
      match ← body with
      | .onward => rounds cond leave body fuel
      | .returned => return .returned

section Body

variable (w : World) (f : CheckedFunction) (call : String → List Int64 → Lowered Unit) (fuel : Nat)

mutual

/-- The effect of a statement, whose first label has the number `next`. -/
def stmt (next : Nat) : Stmt → Lowered Flow
  | .block body => stmts next body
  | .expr value => do
    effect w f call next value
    return .onward
  | .declare decl => do
    declaration w f call next decl
    return .onward
  | .branch cond yes no => do
    let x ← expr w f call (next + 1) cond
    writeScratch (w.residue next)
    if x = 0 then alternative (next + 1 + cond.labels + yes.labels) no
    else stmt (next + 1 + cond.labels) yes
  | .loop cond body =>
    rounds (expr w f call (next + 2) cond) (writeScratch (w.residue (next + 1)))
      (stmt (next + 2 + cond.labels) body) fuel
  | .ret value => do
    result w f call next value
    return .returned

/-- The effect of statements in their order. -/
def stmts (next : Nat) : List Stmt → Lowered Flow
  | [] => pure .onward
  | s :: rest => do
    match ← stmt next s with
    | .onward => stmts (next + s.labels) rest
    | .returned => return .returned

/-- The effect of the second arm of a branch. -/
def alternative (next : Nat) : Option Stmt → Lowered Flow
  | none => pure .onward
  | some s => stmt (next + 1) s

end

end Body

/-- A call of a function with its arguments. What it returns is left in the scratch register. -/
def function (w : World) : (fuel : Nat) → String → List Int64 → Lowered Unit
  | 0, _, _ => stop .timeout
  | fuel + 1, name, args =>
    match w.find? name with
    | none => stop .stuck
    | some (f, exit) => do
      enter f args
      let _ ← stmts w f (function w fuel) fuel (exit + 1) f.body
      if f.isMain then stop .halted else return ()

/-- The evaluation of a program from registers that hold zero. -/
def run (functions : List CheckedFunction) (grid : Grid) (residue : Nat → Option Int64)
    (fuel : Nat) : Outcome Unit :=
  function (.ofFunctions functions grid residue) fuel mainName [] .initial

end Lowered

end GridStack
