import GridStack.Proofs.Simulation.Expr

/-!
# Statements

The code of a statement does what its evaluation on registers says, and leaves the stack as it found it
(`stmt_runs`). Control is then behind the code, or at the label behind the body when the function is left
(`Scene.leaving`). A loop is by induction on the rounds that its evaluation has fuel for: the jump back at
the end of a round is what pays for the next one.
-/

namespace GridStack

namespace Scene

open Machine (Realizes place)
open Layout (Stands)

variable {s : Scene} {fuel : Nat} {front : List Instr} {functions : List CheckedFunction} {site : Site}
  {call : String → List Int64 → Lowered Unit}

/-- Where control is behind a statement whose code ends at an address. -/
def leaving (s : Scene) (site : Site) (pc : Int64) : Lowered.Flow → Int64
  | .onward => pc
  | .returned => (s.address site.exit).toInt64

/-- Without fuel nothing has to be done. -/
theorem Runs.timeout {α : Type} {pc : Int64} {takes : List Int64} {next : α → Int64}
    {leaves : α → List Int64} : s.Runs 0 pc takes (Lowered.stop .timeout) next leaves :=
  fun m _ _ _ shows => ⟨0, m, Nat.le_refl 0, .here shows.floor_suffix, shows.log_eq⟩

/-- The write of what is in the scratch register. -/
theorem write_runs (x y : Int64) (stands : Stands s.all front [.plain .output]) :
    s.Runs fuel (place front) [y, x]
      (do
        let value ← Lowered.readScratch
        fun cells => .value () { cells with log := ⟨x, y, value⟩ :: cells.log })
      (fun _ => place (front ++ [.plain .output])) fun _ => [] := by
  refine Runs.of_block stands fun base cells known => ?_
  obtain ⟨vars, scratch, log⟩ := cells
  obtain ⟨-, value, rfl⟩ := known
  exact ⟨(), ⟨vars, some value, ⟨x, y, value⟩ :: log⟩, rfl, rfl⟩

/-- The code of an expression that is a statement does what its evaluation says. -/
theorem effect_runs (calls : s.Calls site.table fuel call)
    (few : site.function.vars.length ≤ maxVariables) {e : Expr} {depth : Int} {next : Nat}
    {block : List Instr} (code : EffectCode site depth next e block) (stands : Stands s.all front block) :
    s.Runs fuel (place front) [] (Lowered.effect (s.world functions) site.function call next e)
      (fun _ => place (front ++ block)) fun _ => [] := by
  cases code with
  | assign declared store => exact store_runs calls few (writes_var few declared) store stands
  | @output x y value receiver typeArgs first second third abscissa ordinate store =>
    -- The last argument is never on the stack: it is stored in the scratch register, which is read.
    have split : Lowered.effect (s.world functions) site.function call next
        (.call outputName [x, y, value] receiver typeArgs) = (do
          let a ← Lowered.expr (s.world functions) site.function call next x
          let b ← Lowered.expr (s.world functions) site.function call (next + x.labels) y
          Lowered.expr (s.world functions) site.function call (next + x.labels + y.labels) value >>=
            fun c => Lowered.writeScratch (some c)
          let c ← Lowered.readScratch
          fun cells => .value () { cells with log := ⟨a, b, c⟩ :: cells.log }) := by
      rw [Lowered.effect, if_pos rfl]
      simp only [Lowered.exprs, Lowered.bind_assoc]
      rfl
    rw [split]
    refine (expr_runs calls few x abscissa stands.left).bind fun a _ => ?_
    refine ((expr_runs calls few y ordinate stands.right.left).frame [a]).bind fun b _ => ?_
    refine ((store_runs calls few writes_scratch store stands.right.right.left).frame [b, a]).bind
      fun _ _ => ?_
    refine (write_runs a b stands.right.right.right).cast fun _ => ?_
    simp only [List.append_assoc]
  | call user found code =>
    obtain ⟨arity, values⟩ := code
    rw [Lowered.effect, if_neg user]
    exact call_runs calls few found stands (exprs_runs calls few _ values stands.right.left)
      fun values yields => (exprs_length _ yields).trans arity

/-- The code of a return. -/
theorem ret_runs (calls : s.Calls site.table fuel call) (few : site.function.vars.length ≤ maxVariables)
    {value : Expr} {depth : Int} {next : Nat} {block : List Instr}
    (store : StoreCode site depth next value Register.scratch block)
    (stands : Stands s.all front (block ++ Code.jump (.label site.exit))) :
    s.Runs fuel (place front) []
      (Lowered.stmt (s.world functions) site.function call fuel next (.ret (some value)))
      (s.leaving site (place (front ++ (block ++ Code.jump (.label site.exit))))) fun _ => [] := by
  rw [Lowered.stmt]
  refine (store_runs calls few writes_scratch store stands.left).bind fun _ _ => ?_
  have jump : Stands s.all (front ++ block) (Code.jump (.label site.exit) ++ []) := by
    rw [List.append_nil]
    exact stands.right
  exact Runs.goto jump (Runs.pure rfl rfl)

/-- The rounds of a loop, when the condition and the body do what their evaluations say. The jump at the
end of a round leads to a place where the induction on the rounds applies. -/
theorem rounds_runs {start done : Label} {first second : List Instr}
    (stands : Stands s.all front ([Instr.marker start] ++ (first ++ (Code.jumpIfZero done ++ (second ++
      (Code.jump (.label start) ++ [Instr.marker done])))))) {cond : Lowered Int64}
    {body : Lowered Lowered.Flow}
    (test : s.Runs fuel (place (front ++ [Instr.marker start])) [] cond
      (fun _ => place (front ++ [Instr.marker start] ++ first)) fun x => [x])
    (round : s.Runs fuel (place (front ++ [Instr.marker start] ++ first ++ Code.jumpIfZero done)) [] body
      (s.leaving site (place (front ++ [Instr.marker start] ++ first ++ Code.jumpIfZero done ++ second)))
      fun _ => []) (n : Nat) (enough : n ≤ fuel) :
    s.Runs n (place (front ++ [Instr.marker start])) []
      (Lowered.rounds cond (Lowered.writeScratch (some (s.address done).toInt64)) body n)
      (s.leaving site (place (front ++ ([Instr.marker start] ++ (first ++ (Code.jumpIfZero done ++ (second ++
        (Code.jump (.label start) ++ [Instr.marker done]))))))))
      fun _ => [] := by
  have at_start : (s.address start).toInt64 = place (front ++ [Instr.marker start]) :=
    (address_eq stands.left).trans (place_marker start).symm
  have at_done : (s.address done).toInt64 = place (front ++ ([Instr.marker start] ++ (first ++
      (Code.jumpIfZero done ++ (second ++ (Code.jump (.label start) ++ [Instr.marker done])))))) := by
    refine ((address_eq stands.right.right.right.right.right).trans (place_marker done).symm).trans ?_
    simp only [List.append_assoc]
  induction n with
  | zero => exact Runs.timeout
  | succ n ih =>
    rw [Lowered.rounds]
    refine (test.mono enough).bind fun x _ => (Runs.jumpIfZero stands.right.right).bind fun _ _ => ?_
    by_cases hx : x = 0
    · simp only [if_pos hx]
      exact Runs.pure at_done.symm rfl
    · simp only [if_neg hx]
      refine (round.mono enough).bind fun flow _ => ?_
      cases flow with
      | onward =>
        -- The next round has one unit of fuel less, and the jump back to it has two steps.
        have again := ih (Nat.le_of_succ_le enough)
        rw [← at_start] at again
        exact (Runs.jump stands.right.right.right.right again).mono (by omega)
      | returned => exact Runs.pure rfl rfl

/-- Behind the first arm of a branch the second one is passed over. -/
theorem alternative_passed {depth : Int} {next : Nat} {otherwise : Label} {no : Option Stmt}
    {block : List Instr} (code : AlternativeCode site depth next otherwise no block)
    (stands : Stands s.all front block) :
    s.Runs fuel (place front) [] (pure Lowered.Flow.onward) (s.leaving site (place (front ++ block)))
      fun _ => [] := by
  cases code with
  | none => exact Runs.pure (place_marker otherwise) rfl
  | some arm =>
    refine Runs.goto stands (Runs.pure ?_ rfl)
    refine Eq.trans ?_ ((place_marker ⟨next⟩).trans (address_eq stands.right.right.right).symm)
    simp only [leaving, List.append_assoc]

mutual

/-- The code of a statement does what its evaluation says. -/
theorem stmt_runs (calls : s.Calls site.table fuel call)
    (few : site.function.vars.length ≤ maxVariables) (t : Stmt) {depth : Int} {next : Nat}
    {front block : List Instr} (code : StmtCode site depth next t block)
    (stands : Stands s.all front block) :
    s.Runs fuel (place front) [] (Lowered.stmt (s.world functions) site.function call fuel next t)
      (s.leaving site (place (front ++ block))) fun _ => [] := by
  match t, code with
  | .block body, .block code =>
    rw [Lowered.stmt]
    exact stmts_runs calls few body code stands
  | .expr e, .expr code =>
    rw [Lowered.stmt]
    exact (effect_runs calls few code stands).bind fun _ _ => Runs.pure rfl rfl
  | .declare _, .declare declared store =>
    rw [Lowered.stmt]
    exact (store_runs calls few (writes_var few declared) store stands).bind fun _ _ => Runs.pure rfl rfl
  | .branch cond yes no, .branch test arm other =>
    rw [Lowered.stmt]
    refine (expr_runs calls few cond test stands.left).bind fun x _ =>
      (Runs.jumpIfZero stands.right).bind fun _ _ => ?_
    by_cases hx : x = 0
    · simp only [if_pos hx]
      refine (alternative_runs calls few no other stands.right.right.right).cast fun _ => ?_
      simp only [List.append_assoc]
    · simp only [if_neg hx]
      refine (stmt_runs calls few yes arm stands.right.right.left).behind fun flow => ?_
      -- An arm that returns has left the function, and nothing of the branch is behind it.
      cases flow with
      | onward =>
        refine (alternative_passed other stands.right.right.right).cast fun _ => ?_
        simp only [List.append_assoc]
      | returned => exact Runs.pure rfl rfl
  | .loop cond body, .loop test round =>
    rw [Lowered.stmt, ← place_marker ⟨next⟩]
    exact rounds_runs stands (expr_runs calls few cond test stands.right.left)
      (stmt_runs calls few body round stands.right.right.right.left) fuel (Nat.le_refl fuel)
  | .ret none, .leave =>
    rw [Lowered.stmt]
    have jump : Stands s.all front (Code.jump (.label site.exit) ++ []) := by
      rw [List.append_nil]
      exact stands
    show s.Runs fuel (place front) [] (pure Lowered.Flow.returned) _ _
    exact Runs.goto jump (Runs.pure rfl rfl)
  | .ret (some value), .ret store => exact ret_runs calls few store stands

/-- The code of statements does what their evaluation says. -/
theorem stmts_runs (calls : s.Calls site.table fuel call)
    (few : site.function.vars.length ≤ maxVariables) (ts : List Stmt) {depth : Int} {next : Nat}
    {front block : List Instr} (code : StmtsCode site depth next ts block)
    (stands : Stands s.all front block) :
    s.Runs fuel (place front) [] (Lowered.stmts (s.world functions) site.function call fuel next ts)
      (s.leaving site (place (front ++ block))) fun _ => [] := by
  match ts, code with
  | [], .nil =>
    rw [Lowered.stmts, List.append_nil]
    exact Runs.pure rfl rfl
  | t :: rest, .cons head tail =>
    rw [Lowered.stmts]
    refine (stmt_runs calls few t head stands.left).bind fun flow _ => ?_
    cases flow with
    | onward =>
      refine (stmts_runs calls few rest tail stands.right).cast fun _ => ?_
      rw [List.append_assoc]
    | returned => exact Runs.pure rfl rfl

/-- The code behind the first arm of a branch, reached at its label, does what the evaluation of the
second arm says. -/
theorem alternative_runs (calls : s.Calls site.table fuel call)
    (few : site.function.vars.length ≤ maxVariables) (no : Option Stmt) {depth : Int} {next : Nat}
    {otherwise : Label} {front block : List Instr}
    (code : AlternativeCode site depth next otherwise no block) (stands : Stands s.all front block) :
    s.Runs fuel (s.address otherwise).toInt64 []
      (Lowered.alternative (s.world functions) site.function call fuel next no)
      (s.leaving site (place (front ++ block))) fun _ => [] := by
  match no, code with
  | none, .none =>
    rw [Lowered.alternative]
    exact Runs.pure ((place_marker otherwise).trans (address_eq stands).symm) rfl
  | some t, .some arm =>
    rw [Lowered.alternative, address_eq stands.right.left, ← place_marker otherwise]
    refine (stmt_runs calls few t arm stands.right.right.left).cast fun flow => ?_
    cases flow with
    | onward =>
      refine Eq.trans (place_marker ⟨next⟩).symm ?_
      simp only [leaving, List.append_assoc]
    | returned => rfl

end

end Scene

end GridStack
