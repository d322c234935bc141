import GridStack.Proofs.Simulation.Call

/-!
# Expressions

The code of an expression does what its evaluation on registers says, and leaves the value on the stack
(`expr_runs`). The forms that jump come first, for any code of their operands, then the expressions by
recursion on the tree. A value that is moved into a register is `store_runs`: there a push at the end of
the code may have been fused with the pop, and which expressions end with a push is seen from their form.
-/

namespace GridStack

namespace Scene

open Machine (Realizes place)
open Layout (Stands)

variable {s : Scene} {fuel : Nat} {front first second back : List Instr}

/-- The world of a program's functions, in which the content that a conditional jump leaves behind is the
address it has here. -/
def world (s : Scene) (functions : List CheckedFunction) : Lowered.World :=
  .ofFunctions functions s.grid fun label => some (s.address ⟨label⟩).toInt64

section Forms

variable {X Y : Lowered Int64} {halfway done : Label}

/-- The code of `&&`. -/
theorem and_runs
    (stands : Stands s.all front (first ++ (Code.jumpIfZero halfway ++ (second ++
      (Code.jump (.label done) ++ [Instr.marker halfway, .imm .const 0, .marker done])))))
    (left : s.Runs fuel (place front) [] X (fun _ => place (front ++ first)) fun x => [x])
    (right : s.Runs fuel (place (front ++ first ++ Code.jumpIfZero halfway)) [] Y
      (fun _ => place (front ++ first ++ Code.jumpIfZero halfway ++ second)) fun y => [y]) :
    s.Runs fuel (place front) []
      (do
        let x ← X
        Lowered.writeScratch (some (s.address halfway).toInt64)
        if x = 0 then return 0 else Y)
      (fun _ => place (front ++ (first ++ (Code.jumpIfZero halfway ++ (second ++
        (Code.jump (.label done) ++ [Instr.marker halfway, .imm .const 0, .marker done]))))))
      fun x => [x] := by
  have tail := stands.right.right.right.right
  have at_halfway : (s.address halfway).toInt64 = place (front ++ first ++ Code.jumpIfZero halfway ++
      second ++ Code.jump (.label done)) := address_eq tail
  have at_done : (s.address done).toInt64 = place (front ++ first ++ Code.jumpIfZero halfway ++
      second ++ Code.jump (.label done) ++ [Instr.marker halfway] ++ [Instr.imm .const 0]) :=
    address_eq tail.tail.tail
  have at_end : place (front ++ (first ++ (Code.jumpIfZero halfway ++ (second ++
      (Code.jump (.label done) ++ [Instr.marker halfway, .imm .const 0, .marker done])))))
        = (s.address done).toInt64 := by
    refine Eq.trans ?_ ((place_marker done).trans at_done.symm)
    simp only [List.append_assoc, List.cons_append, List.nil_append]
  refine left.bind fun x _ => (Runs.jumpIfZero stands.right).bind fun _ _ => ?_
  by_cases hx : x = 0
  · -- The jump is taken, the second operand is passed over, and the zero behind it is the value.
    simp only [if_pos hx]
    rw [at_halfway]
    refine Runs.cast (Runs.of_block tail fun base cells _ => ⟨0, cells, rfl, rfl⟩) fun _ => ?_
    simp only [List.append_assoc]
  · -- The second operand leaves the value, and the zero behind it is jumped over.
    simp only [if_neg hx]
    refine right.behind fun y => Runs.goto stands.right.right.right ?_
    exact Runs.pure at_end rfl

/-- The code of `||`. -/
theorem or_runs
    (stands : Stands s.all front (first ++ (Code.jumpIfZero halfway ++ ([Instr.imm .const 1] ++
      (Code.jump (.label done) ++ ([Instr.marker halfway] ++ (second ++ [Instr.marker done])))))))
    (left : s.Runs fuel (place front) [] X (fun _ => place (front ++ first)) fun x => [x])
    (right : s.Runs fuel (place (front ++ first ++ Code.jumpIfZero halfway ++ [Instr.imm .const 1] ++
        Code.jump (.label done) ++ [Instr.marker halfway])) [] Y
      (fun _ => place (front ++ first ++ Code.jumpIfZero halfway ++ [Instr.imm .const 1] ++
        Code.jump (.label done) ++ [Instr.marker halfway] ++ second)) fun y => [y]) :
    s.Runs fuel (place front) []
      (do
        let x ← X
        Lowered.writeScratch (some (s.address halfway).toInt64)
        if x = 0 then Y else return 1)
      (fun _ => place (front ++ (first ++ (Code.jumpIfZero halfway ++ ([Instr.imm .const 1] ++
        (Code.jump (.label done) ++ ([Instr.marker halfway] ++ (second ++ [Instr.marker done]))))))))
      fun x => [x] := by
  have tail := stands.right.right.right.right
  have at_halfway : (s.address halfway).toInt64 = place (front ++ first ++ Code.jumpIfZero halfway ++
      [Instr.imm .const 1] ++ Code.jump (.label done) ++ [Instr.marker halfway]) :=
    (address_eq tail).trans (place_marker halfway).symm
  have at_end : place (front ++ (first ++ (Code.jumpIfZero halfway ++ ([Instr.imm .const 1] ++
      (Code.jump (.label done) ++ ([Instr.marker halfway] ++ (second ++ [Instr.marker done])))))))
        = place (front ++ first ++ Code.jumpIfZero halfway ++ [Instr.imm .const 1] ++
          Code.jump (.label done) ++ [Instr.marker halfway] ++ second) := by
    refine Eq.trans ?_ (place_marker done)
    simp only [List.append_assoc]
  have at_done := address_eq tail.right.right
  refine left.bind fun x _ => (Runs.jumpIfZero stands.right).bind fun _ _ => ?_
  by_cases hx : x = 0
  · -- The jump is taken to the second operand, which comes to the end by itself.
    simp only [if_pos hx]
    rw [at_halfway]
    exact right.cast fun _ => at_end.symm
  · -- A one is pushed, and the second operand is jumped over.
    simp only [if_neg hx]
    have one : s.Runs fuel (place (front ++ first ++ Code.jumpIfZero halfway)) [] (pure 1)
        (fun _ => place (front ++ first ++ Code.jumpIfZero halfway ++ [Instr.imm .const 1])) fun x => [x] :=
      Runs.of_block stands.right.right.left fun base cells _ => ⟨1, cells, rfl, rfl⟩
    refine one.behind fun y => Runs.goto stands.right.right.right ?_
    exact Runs.pure (at_end.trans at_done.symm) rfl

end Forms

section Body

variable {functions : List CheckedFunction} {site : Site} {call : String → List Int64 → Lowered Unit}

/-- The index of a variable is that of a register. -/
theorem index_lt (few : site.function.vars.length ≤ maxVariables) {name : String} {index : Nat}
    (declared : site.function.variableIndex? name = some index) : index < 5 := by
  unfold CheckedFunction.variableIndex? at declared
  obtain ⟨lt, -⟩ := List.idxOf?_eq_some_iff.1 declared
  exact index_lt_five few lt

/-- As many values as there are expressions. -/
theorem exprs_length {w : Lowered.World} {next : Nat} (es : List Expr) {values : List Int64}
    (h : (Lowered.exprs w site.function call next es).Yields values) : values.length = es.length := by
  obtain ⟨cells, after, eq⟩ := h
  induction es generalizing next values cells with
  | nil =>
    rw [Lowered.exprs] at eq
    cases eq
    rfl
  | cons e es ih =>
    rw [Lowered.exprs] at eq
    obtain ⟨x, mid, -, eq⟩ := Lowered.bind_value eq
    obtain ⟨xs, mid', rest, eq⟩ := Lowered.bind_value eq
    cases eq
    rw [List.length_cons, List.length_cons, ih mid rest]

/-- An evaluation that is the content of a register. -/
def Reads (source : Int32) (X : Lowered Int64) : Prop :=
  ∀ (base : Int64) (cells : Cells), cells.Known →
    ∃ x, X cells = .value x cells ∧ View.read ⟨base, [], cells⟩ source = some x

/-- An evaluation that changes a register. -/
def Writes (dest : Int32) (W : Int64 → Lowered Unit) : Prop :=
  ∀ (v : View) (x : Int64), ∃ cells, W x v.cells = .value () cells ∧
    v.write dest x = some { v with cells := cells }

/-- A variable is read from its register. -/
theorem reads_var (few : site.function.vars.length ≤ maxVariables) {name : String} {index : Nat}
    (declared : site.function.variableIndex? name = some index) :
    Reads (Register.ofVar index) (Lowered.readVar site.function name) := by
  intro base cells known
  have low := index_lt few declared
  obtain ⟨x, content⟩ := known.1 index low
  refine ⟨x, ?_, (View.read_ofVar _ low).trans content⟩
  unfold Lowered.readVar
  rw [declared]
  dsimp only
  rw [content]
  rfl

/-- A variable is written to its register. -/
theorem writes_var (few : site.function.vars.length ≤ maxVariables) {name : String} {index : Nat}
    (declared : site.function.variableIndex? name = some index) :
    Writes (Register.ofVar index) (Lowered.writeVar site.function name) := by
  intro v x
  refine ⟨_, ?_, View.write_ofVar v (index_lt few declared) x⟩
  unfold Lowered.writeVar
  rw [declared]

/-- The scratch register is read. -/
theorem reads_scratch : Reads Register.scratch Lowered.readScratch := by
  intro base cells known
  obtain ⟨x, content⟩ := known.2
  refine ⟨x, ?_, content⟩
  unfold Lowered.readScratch
  rw [content]
  rfl

/-- The scratch register is written. -/
theorem writes_scratch : Writes Register.scratch fun x => Lowered.writeScratch (some x) :=
  fun _ _ => ⟨_, rfl, rfl⟩

/-- A register is pushed. -/
theorem push_runs {source : Int32} {X : Lowered Int64} (reads : Reads source X)
    (stands : Stands s.all front [.imm .push source]) :
    s.Runs fuel (place front) [] X (fun _ => place (front ++ [.imm .push source])) fun x => [x] := by
  refine Runs.of_block stands fun base cells known => ?_
  obtain ⟨x, eq, read⟩ := reads base cells known
  refine ⟨x, cells, eq, ?_⟩
  show Option.bind (Option.map _ (View.read _ _)) _ = _
  rw [read]
  rfl

/-- A register is moved to another one. -/
theorem move_runs {source dest : Int32} {X : Lowered Int64} {W : Int64 → Lowered Unit}
    (reads : Reads source X) (writes : Writes dest W)
    (stands : Stands s.all front (Code.move dest source)) :
    s.Runs fuel (place front) [] (X >>= W) (fun _ => place (front ++ Code.move dest source))
      fun _ => [] := by
  refine Runs.of_block stands fun base cells known => ?_
  obtain ⟨x, eq, read⟩ := reads base cells known
  obtain ⟨after, written, write⟩ := writes ⟨base, [], cells⟩ x
  refine ⟨(), after, ?_, run_move read write⟩
  show Lowered.andThen X W cells = _
  unfold Lowered.andThen
  rw [eq]
  exact written

/-- The top of the stack is popped into a register. -/
theorem pop_runs {dest : Int32} {W : Int64 → Lowered Unit} (writes : Writes dest W) (x : Int64)
    (stands : Stands s.all front [.imm .pop dest]) :
    s.Runs fuel (place front) [x] (W x) (fun _ => place (front ++ [.imm .pop dest])) fun _ => [] := by
  refine Runs.of_block stands fun base cells _ => ?_
  obtain ⟨after, written, write⟩ := writes ⟨base, [], cells⟩ x
  refine ⟨(), after, written, ?_⟩
  show Option.bind (View.write _ _ _) _ = _
  rw [write]
  rfl

mutual

/-- The code of an expression does what its evaluation says. -/
theorem expr_runs (calls : s.Calls site.table fuel call)
    (few : site.function.vars.length ≤ maxVariables) (e : Expr) {depth : Int} {next : Nat}
    {front block : List Instr} (code : ExprCode site depth next e block)
    (stands : Stands s.all front block) :
    s.Runs fuel (place front) [] (Lowered.expr (s.world functions) site.function call next e)
      (fun _ => place (front ++ block)) fun x => [x] := by
  match e, code with
  | .int n, .int fits =>
    rw [Lowered.expr, fits]
    exact Runs.of_block stands fun base cells _ => ⟨_, cells, rfl, rfl⟩
  | .var name, .var declared =>
    rw [Lowered.expr]
    exact push_runs (reads_var few declared) stands
  | .paren inner, .paren code =>
    rw [Lowered.expr]
    exact expr_runs calls few inner code stands
  | .unary op operand, .unary code =>
    rw [Lowered.expr]
    refine (expr_runs calls few operand code stands.left).bind fun x _ => ?_
    refine Runs.cast (Runs.of_block stands.right fun base cells _ =>
      ⟨op.lowered x, cells, rfl, run_unary op base x [] cells⟩) fun _ => ?_
    rw [List.append_assoc]
  | .binary op lhs rhs, .binary known left right =>
    obtain ⟨f, lowered, run⟩ := run_binary s.address s.grid known
    -- The instruction is that of an operator that always takes both of its operands.
    have strict : op ≠ .and ∧ op ≠ .or := by constructor <;> rintro rfl <;> contradiction
    rw [Lowered.expr_binary _ _ _ strict.1 strict.2, lowered]
    refine (expr_runs calls few lhs left stands.left).bind fun x _ => ?_
    refine ((expr_runs calls few rhs right stands.right.left).frame [x]).bind fun y _ => ?_
    refine Runs.cast (Runs.of_block stands.right.right fun base cells _ =>
      ⟨f x y, cells, rfl, run base x y [] cells⟩) fun _ => ?_
    simp only [List.append_assoc]
  | .binary .and lhs rhs, .and left right =>
    rw [Lowered.expr]
    exact and_runs stands (expr_runs calls few lhs left stands.left)
      (expr_runs calls few rhs right stands.right.right.left)
  | .binary .or lhs rhs, .or left right =>
    rw [Lowered.expr]
    exact or_runs stands (expr_runs calls few lhs left stands.left)
      (expr_runs calls few rhs right stands.right.right.right.right.right.left)
  | .call _ args _ _, .input two values =>
    rw [Lowered.expr, if_pos rfl]
    refine (exprs_runs calls few args values stands.left).bind fun xs yields => ?_
    have count := (exprs_length args yields).trans two
    match xs, count with
    | [x, y], _ =>
      refine Runs.cast (Runs.of_block stands.right fun base cells _ =>
        ⟨_, { cells with scratch := some (s.grid.read x y) }, rfl, rfl⟩) fun _ => ?_
      rw [List.append_assoc]
  | .call name args _ _, .call user found value (.mk arity values) =>
    rw [Lowered.expr, if_neg user]
    refine (call_runs calls few found stands.left
      (exprs_runs calls few args values stands.left.right.left)
      fun values yields => (exprs_length args yields).trans arity).bind fun _ _ => ?_
    refine (push_runs reads_scratch stands.right).cast fun _ => ?_
    rw [List.append_assoc]

/-- The code of expressions does what their evaluation says. -/
theorem exprs_runs (calls : s.Calls site.table fuel call)
    (few : site.function.vars.length ≤ maxVariables) (es : List Expr) {depth : Int} {next : Nat}
    {front block : List Instr} (code : ExprsCode site depth next es block)
    (stands : Stands s.all front block) :
    s.Runs fuel (place front) [] (Lowered.exprs (s.world functions) site.function call next es)
      (fun _ => place (front ++ block)) List.reverse := by
  match es, code with
  | [], .nil =>
    rw [Lowered.exprs, List.append_nil]
    exact Runs.pure rfl rfl
  | e :: es, .cons head tail =>
    rw [Lowered.exprs]
    refine (expr_runs calls few e head stands.left).bind fun x _ => ?_
    -- The first value stays below the others, so the stack holds the values in reverse order.
    refine ((exprs_runs calls few es tail stands.right).frame [x]).bind fun xs _ => ?_
    refine Runs.pure ?_ List.reverse_cons
    rw [List.append_assoc]

end

/-- The value of a call is moved into a register. -/
theorem store_call (calls : s.Calls site.table fuel call)
    (few : site.function.vars.length ≤ maxVariables) {name : String} {args : List Expr}
    {receiver : Option Expr} {typeArgs : List TypeName} {depth : Int} {next : Nat} {callee : Callee}
    {block : List Instr} (user : name ≠ inputName) (found : site.table.find? name = some callee)
    (code : CallCode site depth next callee args block) {dest : Int32} {W : Int64 → Lowered Unit}
    (writes : Writes dest W)
    (stands : Stands s.all front (block ++ Code.move dest Register.scratch)) :
    s.Runs fuel (place front) []
      (Lowered.expr (s.world functions) site.function call next (.call name args receiver typeArgs) >>= W)
      (fun _ => place (front ++ (block ++ Code.move dest Register.scratch))) fun _ => [] := by
  obtain ⟨arity, values⟩ := code
  rw [Lowered.expr, if_neg user, Lowered.bind_assoc]
  refine (call_runs calls few found stands.left
    (exprs_runs calls few args values stands.left.right.left)
    fun values yields => (exprs_length args yields).trans arity).bind fun _ _ => ?_
  refine (move_runs reads_scratch writes stands.right).cast fun _ => ?_
  rw [List.append_assoc]

/-- A cell of the grid is moved into a register. -/
theorem store_input (calls : s.Calls site.table fuel call)
    (few : site.function.vars.length ≤ maxVariables) {args : List Expr} {receiver : Option Expr}
    {typeArgs : List TypeName} {depth : Int} {next : Nat} {block : List Instr} (two : args.length = 2)
    (values : ExprsCode site depth next args block) {dest : Int32} {W : Int64 → Lowered Unit}
    (writes : Writes dest W)
    (stands : Stands s.all front (block ++ ([.plain .input] ++ Code.move dest Register.scratch))) :
    s.Runs fuel (place front) []
      (Lowered.expr (s.world functions) site.function call next
        (.call inputName args receiver typeArgs) >>= W)
      (fun _ => place (front ++ (block ++ ([.plain .input] ++ Code.move dest Register.scratch))))
      fun _ => [] := by
  rw [Lowered.expr, if_pos rfl, Lowered.bind_assoc]
  refine (exprs_runs calls few args values stands.left).bind fun xs yields => ?_
  have count := (exprs_length args yields).trans two
  match xs, count with
  | [x, y], _ =>
    refine Runs.cast (Runs.of_block stands.right fun base cells _ => ?_) fun _ => ?_
    · obtain ⟨after, written, write⟩ :=
        writes ⟨base, [], { cells with scratch := some (s.grid.read x y) }⟩ (s.grid.read x y)
      exact ⟨(), after, written, run_move (View.read_scratch _) write⟩
    · rw [List.append_assoc]

/-- A value that is held by a register is moved from there. -/
theorem held_runs (calls : s.Calls site.table fuel call)
    (few : site.function.vars.length ≤ maxVariables) {e : Expr} {depth : Int} {next : Nat}
    {init : List Instr} {source dest : Int32} {W : Int64 → Lowered Unit} (writes : Writes dest W)
    (held : HeldCode site depth next e init source)
    (stands : Stands s.all front (init ++ Code.move dest source)) :
    s.Runs fuel (place front) []
      (Lowered.expr (s.world functions) site.function call next e >>= W)
      (fun _ => place (front ++ (init ++ Code.move dest source))) fun _ => [] := by
  induction held with
  | var declared =>
    rw [Lowered.expr]
    exact move_runs (reads_var few declared) writes stands
  | paren _ ih =>
    rw [Lowered.expr]
    exact ih stands
  | input two values =>
    rw [List.append_assoc] at stands ⊢
    exact store_input calls few two values writes stands
  | call user found code => exact store_call calls few user found code writes stands

/-- The value of an expression is moved into a register. -/
theorem store_runs (calls : s.Calls site.table fuel call)
    (few : site.function.vars.length ≤ maxVariables) {dest : Int32} {W : Int64 → Lowered Unit}
    (writes : Writes dest W) {e : Expr} {depth : Int} {next : Nat} {block : List Instr}
    (code : StoreCode site depth next e dest block) (stands : Stands s.all front block) :
    s.Runs fuel (place front) []
      (Lowered.expr (s.world functions) site.function call next e >>= W)
      (fun _ => place (front ++ block)) fun _ => [] := by
  rcases code.popped_or_moved with ⟨popped, rfl, value⟩ | ⟨init, source, rfl, held⟩
  · refine (expr_runs calls few e value stands.left).bind fun x _ => ?_
    refine (pop_runs writes x stands.right).cast fun _ => ?_
    rw [List.append_assoc]
  · exact held_runs calls few writes held stands

end Body

end Scene

end GridStack
