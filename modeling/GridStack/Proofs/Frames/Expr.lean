import GridStack.Proofs.Frames.Call
import GridStack.Proofs.Simulation.Expr

/-!
# Expressions keep to their frame

The code of an expression leaves one word on the stack, whatever calls are made in it
(`Activation.expr_leads`). The number of words that an expression has on the stack is always known from its
place in the tree; the count that generation keeps is `excess` words more, and so that is what is carried along.
The forms that jump come first. A value that is moved into a register is `Activation.store_leads`.
-/

namespace GridStack

open Machine (place)
open Layout (Stands)

namespace Scene

variable {s : Scene} {w : Watch} {n : Nat} {floor : List Int64} {base : Int64} {front block first second : List Instr}

/-- A constant is left on the stack. -/
theorem literal_leads {x : Int64} (clear : s.Clear w front block)
    (run : ∀ cells, View.run s.address s.grid block ⟨base, [], cells⟩ = some ⟨base, [x], cells⟩) :
    s.Leads w n floor base (place front) 0 (· = place (front ++ block)) 1 := by
  refine Leads.of_block clear fun stack cells empty _ => ?_
  obtain rfl := List.length_eq_zero_iff.1 empty
  exact ⟨[x], cells, rfl, run cells⟩

/-- A register is pushed. -/
theorem push_leads {source : Int32} {X : Lowered Int64} (reads : Reads source X)
    (clear : s.Clear w front [.imm .push source]) :
    s.Leads w n floor base (place front) 0 (· = place (front ++ [.imm .push source])) 1 := by
  refine Leads.of_block clear fun stack cells empty known => ?_
  obtain rfl := List.length_eq_zero_iff.1 empty
  obtain ⟨x, -, read⟩ := reads base cells known
  refine ⟨[x], cells, rfl, ?_⟩
  show Option.bind (Option.map _ (View.read _ _)) _ = _
  rw [read]
  rfl

/-- The top of the stack is popped into a register. -/
theorem pop_leads {dest : Int32} {W : Int64 → Lowered Unit} (writes : Writes dest W)
    (clear : s.Clear w front [.imm .pop dest]) :
    s.Leads w n floor base (place front) 1 (· = place (front ++ [.imm .pop dest])) 0 := by
  refine Leads.of_block clear fun stack cells one _ => ?_
  obtain ⟨x, rfl⟩ := List.length_eq_one_iff.1 one
  obtain ⟨after, -, write⟩ := writes ⟨base, [], cells⟩ x
  refine ⟨[], after, rfl, ?_⟩
  show Option.bind (View.write _ _ _) _ = _
  rw [write]
  rfl

/-- A register is moved to another one. -/
theorem move_leads {source dest : Int32} {X : Lowered Int64} {W : Int64 → Lowered Unit}
    (reads : Reads source X) (writes : Writes dest W) (clear : s.Clear w front (Code.move dest source)) :
    s.Leads w n floor base (place front) 0 (· = place (front ++ Code.move dest source)) 0 := by
  refine Leads.of_block clear fun stack cells empty known => ?_
  obtain rfl := List.length_eq_zero_iff.1 empty
  obtain ⟨x, -, read⟩ := reads base cells known
  obtain ⟨after, -, write⟩ := writes ⟨base, [], cells⟩ x
  exact ⟨[], after, rfl, run_move read write⟩

/-- A cell of the grid is read into the scratch register. -/
theorem input_leads (clear : s.Clear w front [.plain .input]) :
    s.Leads w n floor base (place front) 2 (· = place (front ++ [.plain .input])) 0 := by
  refine Leads.of_block clear fun stack cells two _ => ?_
  match stack, two with
  | [y, x], _ => exact ⟨[], { cells with scratch := some (s.grid.read x y) }, rfl, rfl⟩

section Forms

variable {halfway done : Label}

/-- The code of `&&`. -/
theorem and_leads
    (clear : s.Clear w front (first ++ (Code.jumpIfZero halfway ++ (second ++
      (Code.jump (.label done) ++ [Instr.marker halfway, .imm .const 0, .marker done])))))
    (left : s.Leads w n floor base (place front) 0 (· = place (front ++ first)) 1)
    (right : s.Leads w n floor base (place (front ++ first ++ Code.jumpIfZero halfway)) 0
      (· = place (front ++ first ++ Code.jumpIfZero halfway ++ second)) 1) :
    s.Leads w n floor base (place front) 0
      (· = place (front ++ (first ++ (Code.jumpIfZero halfway ++ (second ++
        (Code.jump (.label done) ++ [Instr.marker halfway, .imm .const 0, .marker done])))))) 1 := by
  have arm := clear.right.past_jumpIfZero
  have tail : s.Quiet w (front ++ first ++ Code.jumpIfZero halfway ++ second ++ Code.jump (.label done))
      ([Instr.marker halfway, .imm .const 0] ++ [Instr.marker done]) := arm.right.right
  have at_end : (s.address done).toInt64 = place (front ++ (first ++ (Code.jumpIfZero halfway ++ (second ++
      (Code.jump (.label done) ++ [Instr.marker halfway, .imm .const 0, .marker done]))))) := by
    refine ((address_eq tail.right.stands).trans (place_marker done).symm).trans ?_
    simp only [List.append_assoc, List.cons_append, List.nil_append]
  refine left.andThen ((Leads.jumpIfZero clear.right tail.calm_label).bind ?_)
  rintro _ (rfl | rfl)
  · -- The first operand is zero, and so is the value.
    rw [address_eq tail.stands]
    exact (literal_leads tail.toClear fun _ => rfl).cast (by simp)
  · exact right.andThen (Leads.goto arm.right.toClear (admits_of_calm tail.right.calm_label) (.here at_end))

/-- The code of `||`. -/
theorem or_leads
    (clear : s.Clear w front (first ++ (Code.jumpIfZero halfway ++ ([Instr.imm .const 1] ++
      (Code.jump (.label done) ++ ([Instr.marker halfway] ++ (second ++ [Instr.marker done])))))))
    (left : s.Leads w n floor base (place front) 0 (· = place (front ++ first)) 1)
    (right : s.Leads w n floor base (place (front ++ first ++ Code.jumpIfZero halfway ++
        [Instr.imm .const 1] ++ Code.jump (.label done) ++ [Instr.marker halfway])) 0
      (· = place (front ++ first ++ Code.jumpIfZero halfway ++ [Instr.imm .const 1] ++
        Code.jump (.label done) ++ [Instr.marker halfway] ++ second)) 1) :
    s.Leads w n floor base (place front) 0
      (· = place (front ++ (first ++ (Code.jumpIfZero halfway ++ ([Instr.imm .const 1] ++
        (Code.jump (.label done) ++ ([Instr.marker halfway] ++ (second ++ [Instr.marker done])))))))) 1 := by
  have arm := clear.right.past_jumpIfZero
  have tail := arm.right.right
  have at_halfway : (s.address halfway).toInt64 = place (front ++ first ++ Code.jumpIfZero halfway ++
      [Instr.imm .const 1] ++ Code.jump (.label done) ++ [Instr.marker halfway]) :=
    (address_eq tail.stands).trans (place_marker halfway).symm
  have at_end : place (front ++ first ++ Code.jumpIfZero halfway ++ [Instr.imm .const 1] ++
      Code.jump (.label done) ++ [Instr.marker halfway] ++ second)
        = place (front ++ (first ++ (Code.jumpIfZero halfway ++ ([Instr.imm .const 1] ++
          (Code.jump (.label done) ++ ([Instr.marker halfway] ++ (second ++ [Instr.marker done]))))))) := by
    refine (place_marker done).symm.trans ?_
    simp only [List.append_assoc]
  refine left.andThen ((Leads.jumpIfZero clear.right tail.calm_label).bind ?_)
  rintro _ (rfl | rfl)
  · -- The first operand is zero, and the value is that of the second one.
    rw [at_halfway]
    exact right.cast at_end
  · have one : s.Leads w n floor base (place (front ++ first ++ Code.jumpIfZero halfway)) 0
        (· = place (front ++ first ++ Code.jumpIfZero halfway ++ [Instr.imm .const 1])) 1 :=
      literal_leads arm.toClear.left fun _ => rfl
    refine one.andThen (Leads.goto arm.right.toClear (admits_of_calm tail.right.right.calm_label) ?_)
    exact .here ((address_eq tail.right.right.stands).trans at_end)

end Forms

namespace Activation

variable (a : s.Activation w n)

mutual

/-- The code of an expression leaves its value on the stack, above the words that are there. -/
theorem expr_leads {operands : List Int64} {words : Nat} (count : operands.length = words) (e : Expr)
    {excess next : Nat} {depth : Int} {front block : List Instr}
    (permits : ∀ call ∈ e.points a.site.window words excess next, s.Permits w a.site a.base a.floor call)
    (balance : depth = words + excess) (code : ExprCode a.site depth next e block)
    (clear : s.Clear w front block) :
    s.Leads w (n + 1) (operands ++ a.floor) a.base (place front) 0 (· = place (front ++ block)) 1 := by
  match e, code with
  | .int _, .int _ => exact literal_leads clear fun _ => rfl
  | .var _, .var declared => exact push_leads (reads_var a.few declared) clear
  | .paren inner, .paren code =>
    rw [Expr.points] at permits
    exact expr_leads count inner permits balance code clear
  | .unary op operand, .unary code =>
    rw [Expr.points] at permits
    refine (expr_leads count operand permits balance code clear.left).andThen ?_
    refine Leads.cast (Leads.of_block clear.right fun stack cells one _ => ?_) (by rw [List.append_assoc])
    obtain ⟨x, rfl⟩ := List.length_eq_one_iff.1 one
    exact ⟨[op.lowered x], cells, rfl, run_unary op a.base x [] cells⟩
  | .binary op lhs rhs, .binary known left right =>
    obtain ⟨f, -, run⟩ := run_binary s.address s.grid known
    have strict : op ≠ .and ∧ op ≠ .or := by
      constructor <;> rintro rfl <;> contradiction
    rw [Expr.points, if_neg strict.1, if_neg strict.2, List.forall_mem_append] at permits
    refine (expr_leads count lhs permits.1 balance left clear.left).andThen ?_
    refine Leads.andThen (Leads.frame_above 1 fun low one => expr_leads ?_ rhs permits.2 (by omega) right
      clear.right.left) ?_
    · rw [List.length_append, one, count, Nat.add_comm]
    · refine Leads.cast (Leads.of_block clear.right.right fun stack cells two _ => ?_) (by simp)
      match stack, two with
      | [y, x], _ => exact ⟨[f x y], cells, rfl, run a.base x y [] cells⟩
  | .binary .and lhs rhs, .and left right =>
    rw [Expr.points, if_pos rfl, List.forall_mem_append] at permits
    exact and_leads clear (expr_leads count lhs permits.1 balance left clear.left)
      (expr_leads count rhs permits.2 balance right clear.right.right.left)
  | .binary .or lhs rhs, .or left right =>
    rw [Expr.points, if_neg (by decide), if_pos rfl, List.forall_mem_append] at permits
    -- The word that the other arm leaves is counted, and is not there.
    exact or_leads clear (expr_leads count lhs permits.1 balance left clear.left)
      (expr_leads count rhs permits.2 (by omega) right clear.right.right.right.right.right.left)
  | .call _ args _ _, .input two values =>
    rw [Expr.points, if_pos rfl] at permits
    have parts : s.Clear w _ ([.plain .input] ++ [.imm .push Register.scratch]) := clear.right
    have arguments := exprs_lead count args permits balance values clear.left
    rw [two] at arguments
    refine (arguments.andThen (input_leads parts.left)).andThen ?_
    exact (push_leads reads_scratch parts.right).cast (by simp)
  | .call name args _ _, .call user found value code =>
    rw [Expr.points, if_neg user, List.forall_mem_cons] at permits
    have call := a.call_leads found permits.1 count balance code clear.left
      fun high balanced values clear => exprs_lead high args permits.2 balanced values clear
    exact call.andThen ((push_leads reads_scratch clear.right).cast (by rw [List.append_assoc]))

/-- The code of expressions leaves their values on the stack, above the words that are there. -/
theorem exprs_lead {operands : List Int64} {words : Nat} (count : operands.length = words) (es : List Expr)
    {excess next : Nat} {depth : Int} {front block : List Instr}
    (permits : ∀ call ∈ Expr.pointsOfAll a.site.window words excess next es,
      s.Permits w a.site a.base a.floor call)
    (balance : depth = words + excess) (code : ExprsCode a.site depth next es block)
    (clear : s.Clear w front block) :
    s.Leads w (n + 1) (operands ++ a.floor) a.base (place front) 0 (· = place (front ++ block))
      es.length := by
  match es, code with
  | [], .nil => exact .here (by rw [List.append_nil])
  | e :: es, .cons head tail =>
    rw [Expr.pointsOfAll, List.forall_mem_append] at permits
    refine (expr_leads count e permits.1 balance head clear.left).andThen ?_
    refine Leads.cast (Leads.frame_above 1 fun low one => exprs_lead ?_ es permits.2 (by omega) tail
      clear.right) (by rw [List.append_assoc])
    rw [List.length_append, one, count, Nat.add_comm]

end

/-- The code of a value that is held by a register leaves nothing on the stack, and the register has a
content. -/
theorem held_leads {operands : List Int64} {words : Nat} (count : operands.length = words) {e : Expr}
    {excess next : Nat} {depth : Int} {source : Int32} {front block : List Instr}
    (permits : ∀ call ∈ e.points a.site.window words excess next, s.Permits w a.site a.base a.floor call)
    (balance : depth = words + excess) (held : HeldCode a.site depth next e block source)
    (clear : s.Clear w front block) :
    s.Leads w (n + 1) (operands ++ a.floor) a.base (place front) 0 (· = place (front ++ block)) 0 ∧
      ∃ X, Reads source X := by
  induction held with
  | var declared => exact ⟨.here (by rw [List.append_nil]), _, reads_var a.few declared⟩
  | paren _ ih =>
    rw [Expr.points] at permits
    exact ih permits clear
  | input two values =>
    rw [Expr.points, if_pos rfl] at permits
    have arguments := a.exprs_lead count _ permits balance values clear.left
    rw [two] at arguments
    exact ⟨arguments.andThen ((input_leads clear.right).cast (by rw [List.append_assoc])), _, reads_scratch⟩
  | call user found code =>
    rw [Expr.points, if_neg user, List.forall_mem_cons] at permits
    refine ⟨a.call_leads found permits.1 count balance code clear fun high balanced values clear => ?_, _,
      reads_scratch⟩
    exact a.exprs_lead high _ permits.2 balanced values clear

/-- The value of an expression is moved into a register, and nothing is left on the stack. -/
theorem store_leads {operands : List Int64} {words : Nat} (count : operands.length = words) {e : Expr}
    {excess next : Nat} {depth : Int} {dest : Int32} {front block : List Instr} {W : Int64 → Lowered Unit}
    (writes : Writes dest W)
    (permits : ∀ call ∈ e.points a.site.window words excess next, s.Permits w a.site a.base a.floor call)
    (balance : depth = words + excess) (code : StoreCode a.site depth next e dest block)
    (clear : s.Clear w front block) :
    s.Leads w (n + 1) (operands ++ a.floor) a.base (place front) 0 (· = place (front ++ block)) 0 := by
  rcases code.popped_or_moved with ⟨popped, rfl, value⟩ | ⟨init, source, rfl, held⟩
  · have leads := a.expr_leads count e permits balance value clear.left
    exact leads.andThen ((pop_leads writes clear.right).cast (by rw [List.append_assoc]))
  · -- The push and the pop are a move, behind the code in front of the push.
    obtain ⟨leads, X, reads⟩ := a.held_leads count permits balance held clear.left
    exact leads.andThen ((move_leads reads writes clear.right).cast (by rw [List.append_assoc]))

end Activation

end Scene

end GridStack
