import GridStack.Checked
import GridStack.Machine.Basic

/-!
# The meaning of a program

`Reference.run` evaluates a program directly on its tree, over words of sixteen bits. Every call has
variables of its own, in which only the parameters have a value at the start; operands and arguments are
evaluated from left to right, and the right operand of `&&` and `||` only when it is needed. An evaluation
has the writes it makes and a verdict. It is stuck when it reads a variable without a value, or uses the
value of a call that ended without returning one.

Fuel bounds the depth of calls and the rounds of each loop. More fuel does not change an evaluation that
ended with less (`run_mono`), so that fuel only tells an evaluation that ends from one that does not.
-/

namespace GridStack

namespace Reference

/-- A word of sixteen bits, without a sign. -/
abbrev Word := BitVec 16

/-- A word as a content of the machine. -/
def content (x : Word) : Int64 :=
  Int64.ofNat x.toNat

/-- One where a condition holds, zero elsewhere. -/
def truth (condition : Bool) : Word :=
  if condition then 1 else 0

/-- The meaning of an operator in front of one operand. -/
def unary : UnaryOp → Word → Word
  | .neg, x => -x
  | .not, x => truth (x = 0)
  | .complement, x => ~~~x

/-- The meaning of an operator that evaluates both operands, none for those that are refused. -/
def binary? : BinaryOp → Option (Word → Word → Word)
  | .add => some fun x y => x + y
  | .sub => some fun x y => x - y
  | .mul => some fun x y => x * y
  | .bitAnd => some fun x y => x &&& y
  | .bitOr => some fun x y => x ||| y
  | .bitXor => some fun x y => x ^^^ y
  | .shl => some fun x y => x <<< y
  | .shr => some fun x y => x >>> y
  | .eq => some fun x y => truth (x = y)
  | .ne => some fun x y => truth (x ≠ y)
  | .lt => some fun x y => truth (x < y)
  | .le => some fun x y => truth (x < y + 1)
  | .gt => some fun x y => truth ¬ x < y + 1
  | .ge => some fun x y => truth ¬ x < y
  | .and | .or | .div | .rem | .ushr => none

/-- How an evaluation ends. -/
inductive Verdict (α : Type)
  | done (result : α)
  | stuck
  /-- The fuel is used up. -/
  | timeout

/-- What an evaluation does: its writes in their order, and how it ends. -/
structure Evaluation (α : Type) where
  writes : List Write
  verdict : Verdict α

namespace Evaluation

/-- One evaluation behind another. -/
def andThen {α β : Type} (x : Evaluation α) (f : α → Evaluation β) : Evaluation β :=
  match x.verdict with
  | .done result => ⟨x.writes ++ (f result).writes, (f result).verdict⟩
  | .stuck => ⟨x.writes, .stuck⟩
  | .timeout => ⟨x.writes, .timeout⟩

/-- Evaluations follow one another, and so do their writes. -/
instance : Monad Evaluation where
  pure result := ⟨[], .done result⟩
  bind := andThen

/-- Three evaluations one behind the other. -/
theorem bind_assoc {α β γ : Type} (x : Evaluation α) (f : α → Evaluation β) (g : β → Evaluation γ) :
    x >>= f >>= g = x >>= fun result => f result >>= g := by
  show andThen (andThen x f) g = andThen x fun result => andThen (f result) g
  obtain ⟨writes, verdict⟩ := x
  cases verdict with
  | done result =>
    dsimp only [andThen]
    cases (f result).verdict with
    | done result =>
      dsimp only
      rw [List.append_assoc]
    | stuck | timeout => rfl
  | stuck | timeout => rfl

/-- The evaluation that cannot go on. -/
def stuck {α : Type} : Evaluation α :=
  ⟨[], .stuck⟩

/-- The evaluation without fuel. -/
def timeout {α : Type} : Evaluation α :=
  ⟨[], .timeout⟩

/-- Uses a value, which has to be there. -/
def use : Option Word → Evaluation Word
  | some value => pure value
  | none => stuck

/-- The same evaluation with more fuel: it is the same, or it goes on where the first one ran out. -/
def Before {α : Type} (x y : Evaluation α) : Prop :=
  x = y ∨ (x.verdict = .timeout ∧ x.writes <+: y.writes)

namespace Before

variable {α β : Type} {x y : Evaluation α}

/-- An evaluation comes before itself. -/
theorem refl (x : Evaluation α) : x.Before x :=
  .inl rfl

/-- Anything comes behind an evaluation without fuel. -/
theorem timeout (y : Evaluation α) : Evaluation.timeout.Before y :=
  .inr ⟨rfl, List.nil_prefix⟩

/-- One evaluation behind another. -/
theorem bind {f g : α → Evaluation β} (h : x.Before y) (h' : ∀ result, (f result).Before (g result)) :
    (x >>= f).Before (y >>= g) := by
  show (andThen x f).Before (andThen y g)
  unfold andThen
  rcases h with rfl | ⟨out, writes⟩
  · cases x.verdict with
    | done result =>
      dsimp only
      rcases h' result with same | ⟨out, writes⟩
      · rw [same]
        exact refl _
      · exact .inr ⟨out, (List.prefix_append_right_inj _).2 writes⟩
    | stuck | timeout => exact refl _
  · rw [out]
    refine .inr ⟨rfl, writes.trans ?_⟩
    cases y.verdict with
    | done result => exact List.prefix_append _ _
    | stuck | timeout => exact List.prefix_refl _

end Before

end Evaluation

/-- The variables of a call that have a value. -/
abbrev Env := String → Option Word

namespace Env

/-- The variables at the start of a call. -/
def ofArgs (params : List Param) (args : List Word) : Env := fun name =>
  ((params.map Param.name).zip args).lookup name

/-- Gives a variable a value. -/
def set (env : Env) (name : String) (value : Word) : Env := fun other =>
  if other = name then some value else env other

end Env

/-- The value of a cell, given its coordinates: the one it was given, or zero. -/
def input (grid : Grid) : List Word → Evaluation Word
  | [x, y] => pure (BitVec.ofInt 16 (grid.read (content x) (content y)).toInt)
  | _ => .stuck

/-- Writes a value to a cell, both given. -/
def output : List Word → Evaluation Unit
  | [x, y, value] => ⟨[⟨content x, content y, content value⟩], .done ()⟩
  | _ => .stuck

/-- Where control goes behind a statement. -/
inductive Flow
  | onward (env : Env)
  /-- The function is left, with a result or without one. -/
  | returned (result : Option Word)

/-- The result of a function. There is none when control goes on behind its body. -/
def Flow.result : Flow → Option Word
  | .onward _ => none
  | .returned result => result

section Body

variable (grid : Grid) (call : String → List Word → Evaluation (Option Word))

mutual

/-- The value of an expression. -/
def expr (env : Env) : Expr → Evaluation Word
  | .int n => pure (BitVec.ofInt 16 n.toInt)
  | .var name => .use (env name)
  | .paren inner => expr env inner
  | .unary op operand => do
    let x ← expr env operand
    return unary op x
  | .binary .and lhs rhs => do
    let x ← expr env lhs
    if x = 0 then return 0 else expr env rhs
  | .binary .or lhs rhs => do
    let x ← expr env lhs
    if x = 0 then expr env rhs else return 1
  | .binary op lhs rhs => do
    let x ← expr env lhs
    let y ← expr env rhs
    match binary? op with
    | some f => return f x y
    | none => .stuck
  | .call name args _ _ => do
    let values ← exprs env args
    if name = inputName then input grid values
    else do
      let result ← call name values
      .use result
  | .assign _ _ _ => .stuck

/-- The values of expressions from left to right. -/
def exprs (env : Env) : List Expr → Evaluation (List Word)
  | [] => pure []
  | e :: es => do
    let x ← expr env e
    let xs ← exprs env es
    return x :: xs

end

/-- The effect of an expression that is a statement, a call or an assignment. -/
def effect (env : Env) : Expr → Evaluation Env
  | .assign _ target value => do
    let x ← expr grid call env value
    return env.set target x
  | .call name args _ _ => do
    let values ← exprs grid call env args
    if name = outputName then output values
    else do
      let _ ← call name values
    return env
  | _ => .stuck

/-- The effect of a local declaration. -/
def declaration (env : Env) (decl : VarDecl) : Evaluation Env :=
  match decl.declarators with
  | [⟨name, some init⟩] => do
    let x ← expr grid call env init
    return env.set name x
  | _ => .stuck

/-- The value that a function returns. -/
def result (env : Env) : Option Expr → Evaluation (Option Word)
  | none => pure none
  | some value => do
    let x ← expr grid call env value
    return some x

end Body

/-- The rounds of a loop. -/
def rounds (cond : Env → Evaluation Word) (body : Env → Evaluation Flow) :
    (fuel : Nat) → Env → Evaluation Flow
  | 0, _ => .timeout
  | fuel + 1, env => do
    let x ← cond env
    if x = 0 then return .onward env
    else
      match ← body env with
      | .onward env => rounds cond body fuel env
      | .returned result => return .returned result

section Body

variable (grid : Grid) (call : String → List Word → Evaluation (Option Word)) (fuel : Nat)

mutual

/-- The effect of a statement. -/
def stmt (env : Env) : Stmt → Evaluation Flow
  | .block body => stmts env body
  | .expr value => do
    let env ← effect grid call env value
    return .onward env
  | .declare decl => do
    let env ← declaration grid call env decl
    return .onward env
  | .branch cond yes no => do
    let x ← expr grid call env cond
    if x = 0 then alternative env no else stmt env yes
  | .loop cond body =>
    rounds (fun env => expr grid call env cond) (fun env => stmt env body) fuel env
  | .ret value => do
    let result ← result grid call env value
    return .returned result

/-- The effect of statements in their order. -/
def stmts (env : Env) : List Stmt → Evaluation Flow
  | [] => pure (.onward env)
  | s :: rest => do
    match ← stmt env s with
    | .onward env => stmts env rest
    | .returned result => return .returned result

/-- The effect of the second arm of a branch. -/
def alternative (env : Env) : Option Stmt → Evaluation Flow
  | none => pure (.onward env)
  | some s => stmt env s

end

end Body

/-- A call of a function with its arguments, and the value that it returns. -/
def function (program : Program) (grid : Grid) :
    (fuel : Nat) → String → List Word → Evaluation (Option Word)
  | 0, _, _ => .timeout
  | fuel + 1, name, args =>
    match program.functions.find? (·.name == name) with
    | none => .stuck
    | some decl =>
      if args.length = decl.params.length then do
        let flow ← stmts grid (function program grid fuel) fuel (.ofArgs decl.params args) decl.body
        return flow.result
      else .stuck

/-- The evaluation of a program. -/
def run (program : Program) (grid : Grid) (fuel : Nat) : Evaluation (Option Word) :=
  function program grid fuel mainName []

section Fuel

variable {grid : Grid} {call call' : String → List Word → Evaluation (Option Word)}

/-- An operator that evaluates both operands. -/
theorem expr_binary {op : BinaryOp} (conjunction : op ≠ .and) (disjunction : op ≠ .or) (env : Env)
    (lhs rhs : Expr) :
    expr grid call env (.binary op lhs rhs) = (do
      let x ← expr grid call env lhs
      let y ← expr grid call env rhs
      match binary? op with
      | some f => return f x y
      | none => .stuck) := by
  cases op <;> first | contradiction | (rw [expr] <;> intro eq <;> contradiction)

mutual

/-- An expression when its calls have more fuel. -/
theorem expr_before (h : ∀ name args, (call name args).Before (call' name args)) (env : Env) (e : Expr) :
    (expr grid call env e).Before (expr grid call' env e) := by
  match e with
  | .int _ | .var _ | .assign _ _ _ =>
    rw [expr, expr]
    exact .refl _
  | .paren inner =>
    rw [expr, expr]
    exact expr_before h env inner
  | .unary op operand =>
    rw [expr, expr]
    exact (expr_before h env operand).bind fun _ => .refl _
  | .binary op lhs rhs =>
    have left := expr_before h env lhs
    have right := expr_before h env rhs
    rcases op.forms with rfl | rfl | ⟨conjunction, disjunction⟩
    · rw [expr, expr]
      refine left.bind fun x => ?_
      split
      · exact .refl _
      · exact right
    · rw [expr, expr]
      refine left.bind fun x => ?_
      split
      · exact right
      · exact .refl _
    · rw [expr_binary conjunction disjunction, expr_binary conjunction disjunction]
      exact left.bind fun _ => right.bind fun _ => .refl _
  | .call name args receiver typeArgs =>
    rw [expr, expr]
    refine (exprs_before h env args).bind fun values => ?_
    split
    · exact .refl _
    · exact (h name values).bind fun _ => .refl _

/-- Expressions when their calls have more fuel. -/
theorem exprs_before (h : ∀ name args, (call name args).Before (call' name args)) (env : Env)
    (es : List Expr) : (exprs grid call env es).Before (exprs grid call' env es) := by
  match es with
  | [] =>
    rw [exprs, exprs]
    exact .refl _
  | e :: es =>
    rw [exprs, exprs]
    exact (expr_before h env e).bind fun _ => (exprs_before h env es).bind fun _ => .refl _

end

/-- An expression that is a statement, when its calls have more fuel. -/
theorem effect_before (h : ∀ name args, (call name args).Before (call' name args)) (env : Env) (e : Expr) :
    (effect grid call env e).Before (effect grid call' env e) := by
  cases e with
  | assign op target value => exact (expr_before h env value).bind fun _ => .refl _
  | call name args receiver typeArgs =>
    refine (exprs_before h env args).bind fun values => ?_
    dsimp only
    split
    · exact .refl _
    · exact (h name values).bind fun _ => .refl _
  | int _ | var _ | paren _ | unary _ _ | binary _ _ _ => exact .refl _

/-- A local declaration when its calls have more fuel. -/
theorem declaration_before (h : ∀ name args, (call name args).Before (call' name args)) (env : Env)
    (decl : VarDecl) : (declaration grid call env decl).Before (declaration grid call' env decl) := by
  unfold declaration
  split
  · exact (expr_before h env _).bind fun _ => .refl _
  · exact .refl _

/-- The value that is returned, when its calls have more fuel. -/
theorem result_before (h : ∀ name args, (call name args).Before (call' name args)) (env : Env)
    (value : Option Expr) : (result grid call env value).Before (result grid call' env value) := by
  cases value with
  | none => exact .refl _
  | some e => exact (expr_before h env e).bind fun _ => .refl _

/-- A loop that may make more rounds. -/
theorem rounds_before {cond cond' : Env → Evaluation Word} {body body' : Env → Evaluation Flow}
    (test : ∀ env, (cond env).Before (cond' env)) (round : ∀ env, (body env).Before (body' env))
    {fuel fuel' : Nat} (more : fuel ≤ fuel') (env : Env) :
    (rounds cond body fuel env).Before (rounds cond' body' fuel' env) := by
  induction fuel generalizing fuel' env with
  | zero => exact .timeout _
  | succ fuel ih =>
    obtain ⟨fuel', rfl⟩ : ∃ n, fuel' = n + 1 := ⟨fuel' - 1, by omega⟩
    rw [rounds, rounds]
    refine (test env).bind fun x => ?_
    split
    · exact .refl _
    · refine (round env).bind fun flow => ?_
      cases flow with
      | onward env => exact ih (by omega) env
      | returned result => exact .refl _

/-- A loop of which each round makes the same writes and changes nothing never ends. -/
theorem rounds_endless {cond : Env → Evaluation Word} {body : Env → Evaluation Flow} {env : Env} {x : Word}
    {writes : List Write} (test : cond env = pure x) (holds : x ≠ 0)
    (round : body env = ⟨writes, .done (.onward env)⟩) (fuel : Nat) :
    rounds cond body fuel env = ⟨(List.replicate fuel writes).flatten, .timeout⟩ := by
  induction fuel with
  | zero => rfl
  | succ fuel ih =>
    have again : rounds cond body (fuel + 1) env
        = ⟨writes ++ (rounds cond body fuel env).writes, (rounds cond body fuel env).verdict⟩ := by
      rw [rounds, test, round]
      show Evaluation.andThen (pure x) (fun x => if x = 0 then _ else Evaluation.andThen _ _) = _
      show Evaluation.mk ([] ++ (if x = 0 then _ else _ : Evaluation Flow).writes)
        (if x = 0 then _ else _ : Evaluation Flow).verdict = _
      rw [if_neg holds]
      rfl
    rw [again, ih, List.replicate_succ, List.flatten_cons]

section Statement

variable {fuel fuel' : Nat}

mutual

/-- A statement with more fuel. -/
theorem stmt_before (h : ∀ name args, (call name args).Before (call' name args)) (more : fuel ≤ fuel')
    (env : Env) (s : Stmt) : (stmt grid call fuel env s).Before (stmt grid call' fuel' env s) := by
  match s with
  | .block body =>
    rw [stmt, stmt]
    exact stmts_before h more env body
  | .expr e =>
    rw [stmt, stmt]
    exact (effect_before h env e).bind fun _ => .refl _
  | .declare decl =>
    rw [stmt, stmt]
    exact (declaration_before h env decl).bind fun _ => .refl _
  | .branch cond yes no =>
    rw [stmt, stmt]
    refine (expr_before h env cond).bind fun x => ?_
    split
    · exact alternative_before h more env no
    · exact stmt_before h more env yes
  | .loop cond body =>
    rw [stmt, stmt]
    exact rounds_before (fun env => expr_before h env cond) (fun env => stmt_before h more env body) more env
  | .ret value =>
    rw [stmt, stmt]
    exact (result_before h env value).bind fun _ => .refl _

/-- Statements with more fuel. -/
theorem stmts_before (h : ∀ name args, (call name args).Before (call' name args)) (more : fuel ≤ fuel')
    (env : Env) (ss : List Stmt) :
    (stmts grid call fuel env ss).Before (stmts grid call' fuel' env ss) := by
  match ss with
  | [] =>
    rw [stmts, stmts]
    exact .refl _
  | s :: rest =>
    rw [stmts, stmts]
    refine (stmt_before h more env s).bind fun flow => ?_
    cases flow with
    | onward env => exact stmts_before h more env rest
    | returned result => exact .refl _

/-- A second arm with more fuel. -/
theorem alternative_before (h : ∀ name args, (call name args).Before (call' name args))
    (more : fuel ≤ fuel') (env : Env) (no : Option Stmt) :
    (alternative grid call fuel env no).Before (alternative grid call' fuel' env no) := by
  match no with
  | none =>
    rw [alternative, alternative]
    exact .refl _
  | some s =>
    rw [alternative, alternative]
    exact stmt_before h more env s

end

end Statement

/-- A call with more fuel. -/
theorem function_before (program : Program) (grid : Grid) {fuel fuel' : Nat} (more : fuel ≤ fuel')
    (name : String) (args : List Word) :
    (function program grid fuel name args).Before (function program grid fuel' name args) := by
  induction fuel generalizing fuel' name args with
  | zero => exact .timeout _
  | succ fuel ih =>
    obtain ⟨fuel', rfl⟩ : ∃ n, fuel' = n + 1 := ⟨fuel' - 1, by omega⟩
    rw [function, function]
    split
    · exact .refl _
    · split
      · exact (stmts_before (ih (by omega)) (by omega) _ _).bind fun _ => .refl _
      · exact .refl _

end Fuel

/-- More fuel does not change an evaluation that has ended. -/
theorem run_mono {program : Program} {grid : Grid} {fuel fuel' : Nat} (more : fuel ≤ fuel')
    (ended : (run program grid fuel).verdict ≠ .timeout) :
    run program grid fuel' = run program grid fuel := by
  rcases function_before program grid more mainName [] with same | ⟨out, -⟩
  · exact same.symm
  · exact absurd out ended

end Reference

end GridStack
