import GridStack.Proofs.Frames.Expr

/-!
# Statements keep to their frame

The code of a statement leaves the stack as it was. Control is then behind the code or at the end of the
function (`Activation.stmt_leads`). As the count is right at every statement, the excess is zero there.

A statement may begin at the entry of its function, when this takes no arguments; then a loop jumps back
to an address that is watched. So of the first position of a statement only this is asked, that a machine
may be there with the base of the function and none of its words (`Scene.Ground`). Everything a statement
jumps to behind its first position is not watched. A loop is by induction on the number of steps that are
followed: each round takes at least the jump back.
-/

namespace GridStack

namespace Scene

open Machine (place)
open Layout (Stands room)

variable {s : Scene} {w : Watch} {n : Nat} {floor : List Int64} {base : Int64}
  {front block block' first second : List Instr}

/-- Code that stands somewhere, at the first position of which a machine may be with a base and without
words above a floor. -/
structure Ground (s : Scene) (w : Watch) (floor : List Int64) (base : Int64) (front block : List Instr) : Prop
    extends s.Clear w front block where
  admits : s.Admits w floor base (place front) 0

/-- Code that is not watched at all. -/
theorem Quiet.ground (h : s.Quiet w front block) : s.Ground w floor base front block :=
  ⟨h.toClear, admits_of_calm h.calm⟩

namespace Ground

/-- The first part of code. -/
theorem left (h : s.Ground w floor base front (block ++ block')) : s.Ground w floor base front block :=
  ⟨h.toClear.left, h.admits⟩

/-- The second part of code. -/
theorem right (h : s.Ground w floor base front (block ++ block')) :
    s.Ground w floor base (front ++ block) block' := by
  rcases Nat.eq_zero_or_pos (room block) with empty | some_room
  · have same : place (front ++ block) = place front := place_append_of_room_eq_zero empty
    exact ⟨h.toClear.right, same ▸ h.admits⟩
  · exact (h.behind some_room).ground

end Ground

namespace Activation

variable (a : s.Activation w n)

/-- Control is at an address or at the end of the function. -/
def Behind (pc pc' : Int64) : Prop :=
  pc' = pc ∨ pc' = (s.address a.site.exit).toInt64

variable {a}

/-- Code behind code that may have left the function. -/
theorem onward {k : Nat} {pc mid pc' : Int64} (h : s.Leads w k a.floor a.base pc 0 (a.Behind mid) 0)
    (h' : s.Leads w k a.floor a.base mid 0 (a.Behind pc') 0) :
    s.Leads w k a.floor a.base pc 0 (a.Behind pc') 0 := by
  refine h.bind ?_
  rintro _ (rfl | rfl)
  · exact h'
  · exact .here (.inr rfl)

/-- The same address in another form. -/
theorem cast_behind {k : Nat} {pc mid pc' : Int64} (h : s.Leads w k a.floor a.base pc 0 (a.Behind mid) 0)
    (eq : mid = pc') : s.Leads w k a.floor a.base pc 0 (a.Behind pc') 0 :=
  eq ▸ h

variable (a)

/-- The jump of a return. -/
theorem leave_leads {pc : Int64} (clear : s.Clear w front (Code.jump (.label a.site.exit))) :
    s.Leads w (n + 1) a.floor a.base (place front) 0 (a.Behind pc) 0 := by
  rw [← List.append_nil (Code.jump _)] at clear
  exact Leads.goto clear a.leaves (.here (.inr rfl))

/-- The code of an expression that is a statement. -/
theorem effect_leads {e : Expr} {next : Nat}
    (permits : ∀ call ∈ e.effectPoints a.site.window next, s.Permits w a.site a.base a.floor call)
    (code : EffectCode a.site 0 next e block) (clear : s.Clear w front block) :
    s.Leads w (n + 1) a.floor a.base (place front) 0 (· = place (front ++ block)) 0 := by
  have empty : ([] : List Int64).length = 0 := rfl
  cases code with
  | assign declared store => exact a.store_leads empty (writes_var a.few declared) permits rfl store clear
  | output abscissa ordinate store =>
    unfold Expr.effectPoints at permits
    dsimp only at permits
    simp only [Expr.pointsOfAll, if_true, List.append_nil, List.forall_mem_append] at permits
    obtain ⟨in_x, in_y, in_value⟩ := permits
    -- One word more is on the stack behind each of the coordinates.
    have first := a.expr_leads empty _ in_x rfl abscissa clear.left
    have second := Leads.frame 1 fun _ one => a.expr_leads one _ in_y rfl ordinate clear.right.left
    have third := Leads.frame 2 fun _ two =>
      a.store_leads two writes_scratch in_value rfl store clear.right.right.left
    refine first.andThen (second.andThen (third.andThen ?_))
    refine Leads.cast (Leads.of_block clear.right.right.right fun stack cells two known => ?_) (by simp)
    obtain ⟨vars, scratch, log⟩ := cells
    obtain ⟨-, value, rfl⟩ := known
    match stack, two with
    | [y, x], _ => exact ⟨[], ⟨vars, some value, ⟨x, y, value⟩ :: log⟩, rfl, rfl⟩
  | call user found code =>
    unfold Expr.effectPoints at permits
    dsimp only at permits
    rw [if_neg user, List.forall_mem_cons] at permits
    exact a.call_leads found permits.1 empty rfl code clear fun high balanced values clear =>
      a.exprs_lead high _ permits.2 balanced values clear

/-- The rounds of a loop, when the condition and the body keep to the frame. -/
theorem rounds_lead {start done : Label}
    (ground : s.Ground w a.floor a.base front ([Instr.marker start] ++ (first ++ (Code.jumpIfZero done ++
      (second ++ (Code.jump (.label start) ++ [Instr.marker done]))))))
    (test : s.Leads w (n + 1) a.floor a.base (place (front ++ [Instr.marker start])) 0
      (· = place (front ++ [Instr.marker start] ++ first)) 1)
    (round : s.Leads w (n + 1) a.floor a.base
      (place (front ++ [Instr.marker start] ++ first ++ Code.jumpIfZero done)) 0
      (a.Behind (place (front ++ [Instr.marker start] ++ first ++ Code.jumpIfZero done ++ second))) 0)
    (k : Nat) (enough : k ≤ n + 1) :
    s.Leads w k a.floor a.base (place (front ++ [Instr.marker start])) 0
      (a.Behind (place (front ++ ([Instr.marker start] ++ (first ++ (Code.jumpIfZero done ++ (second ++
        (Code.jump (.label start) ++ [Instr.marker done])))))))) 0 := by
  have arm := ground.right.toClear.right.past_jumpIfZero
  have tail := arm.right.right
  have at_start : (s.address start).toInt64 = place (front ++ [Instr.marker start]) :=
    (address_eq ground.stands.left).trans (place_marker start).symm
  have at_done : (s.address done).toInt64 = place (front ++ ([Instr.marker start] ++ (first ++
      (Code.jumpIfZero done ++ (second ++ (Code.jump (.label start) ++ [Instr.marker done])))))) := by
    refine ((address_eq tail.stands).trans (place_marker done).symm).trans ?_
    simp only [List.append_assoc]
  have admits : s.Admits w a.floor a.base (s.address start).toInt64 0 := by
    rw [at_start]
    exact ground.right.admits
  induction k with
  | zero => exact fun _ _ => trivial
  | succ k ih =>
    have less : k ≤ n + 1 := Nat.le_of_succ_le enough
    have again : s.Leads w k a.floor a.base (s.address start).toInt64 0 _ 0 := at_start ▸ ih less
    refine (test.mono enough).andThen ((Leads.jumpIfZero ground.right.right.toClear tail.calm_label).bind ?_)
    rintro _ (rfl | rfl)
    · exact .here (.inl at_done)
    · -- The rounds behind the jump back have one step less.
      exact onward (round.mono enough) (Leads.jump arm.right.toClear admits again)

/-- The label of the second arm of a branch is not watched. -/
theorem alternative_calm {depth : Int} {next : Nat} {otherwise : Label} {no : Option Stmt}
    (code : AlternativeCode a.site depth next otherwise no block) (quiet : s.Quiet w front block) :
    w.Calm (s.address otherwise).toInt64 := by
  cases code with
  | none => exact quiet.calm_label
  | some arm => exact quiet.right.calm_label

/-- Behind the first arm of a branch the second one is passed over. -/
theorem alternative_skipped {depth : Int} {next : Nat} {otherwise : Label} {no : Option Stmt}
    (code : AlternativeCode a.site depth next otherwise no block) (quiet : s.Quiet w front block) :
    s.Leads w (n + 1) a.floor a.base (place front) 0 (a.Behind (place (front ++ block))) 0 := by
  cases code with
  | none => exact .here (.inl (place_marker otherwise).symm)
  | some arm =>
    have last := quiet.right.right.right
    refine Leads.goto quiet.toClear (admits_of_calm last.calm_label) (.here (.inl ?_))
    refine ((address_eq last.stands).trans (place_marker ⟨next⟩).symm).trans ?_
    simp only [List.append_assoc]

mutual

/-- The code of a statement leaves the stack as it was. -/
theorem stmt_leads (t : Stmt) {next : Nat} {front block : List Instr}
    (permits : ∀ call ∈ t.points a.site.window next, s.Permits w a.site a.base a.floor call)
    (code : StmtCode a.site 0 next t block) (ground : s.Ground w a.floor a.base front block) :
    s.Leads w (n + 1) a.floor a.base (place front) 0 (a.Behind (place (front ++ block))) 0 := by
  have empty : ([] : List Int64).length = 0 := rfl
  match t, code with
  | .block body, .block code =>
    rw [Stmt.points] at permits
    exact stmts_lead body permits code ground
  | .expr e, .expr code =>
    rw [Stmt.points] at permits
    exact (a.effect_leads permits code ground.toClear).widen fun _ => .inl
  | .declare _, .declare declared store =>
    rw [Stmt.points] at permits
    have leads := a.store_leads empty (writes_var a.few declared) permits rfl store ground.toClear
    exact leads.widen fun _ => .inl
  | .branch cond yes no, .branch test arm other =>
    rw [Stmt.points, List.forall_mem_append, List.forall_mem_append] at permits
    obtain ⟨in_cond, in_yes, in_no⟩ := permits
    have behind := ground.right.toClear.past_jumpIfZero
    have tested := a.expr_leads empty cond in_cond rfl test ground.left.toClear
    refine tested.andThen ?_
    refine (Leads.jumpIfZero ground.right.toClear (a.alternative_calm other behind.right)).bind ?_
    rintro _ (rfl | rfl)
    · exact cast_behind (alternative_leads no in_no other behind.right) (by simp only [List.append_assoc])
    · refine onward (stmt_leads yes in_yes arm behind.ground.left) ?_
      exact cast_behind (a.alternative_skipped other behind.right) (by simp only [List.append_assoc])
  | .loop cond body, .loop test round =>
    rw [Stmt.points, List.forall_mem_append] at permits
    have behind := ground.right.right.toClear.past_jumpIfZero
    rw [← place_marker ⟨next⟩]
    exact a.rounds_lead ground (a.expr_leads empty cond permits.1 rfl test ground.right.left.toClear)
      (stmt_leads body permits.2 round behind.ground.left) (n + 1) (Nat.le_refl _)
  | .ret none, .leave => exact a.leave_leads ground.toClear
  | .ret (some value), .ret store =>
    rw [Stmt.points] at permits
    have leads := a.store_leads empty writes_scratch permits rfl store ground.left.toClear
    exact leads.andThen (a.leave_leads ground.right.toClear)

/-- The code of statements leaves the stack as it was. -/
theorem stmts_lead (ts : List Stmt) {next : Nat} {front block : List Instr}
    (permits : ∀ call ∈ Stmt.pointsOfAll a.site.window next ts, s.Permits w a.site a.base a.floor call)
    (code : StmtsCode a.site 0 next ts block) (ground : s.Ground w a.floor a.base front block) :
    s.Leads w (n + 1) a.floor a.base (place front) 0 (a.Behind (place (front ++ block))) 0 := by
  match ts, code with
  | [], .nil => exact .here (.inl (by rw [List.append_nil]))
  | t :: rest, .cons head tail =>
    rw [Stmt.pointsOfAll, List.forall_mem_append] at permits
    refine onward (stmt_leads t permits.1 head ground.left) ?_
    exact cast_behind (stmts_lead rest permits.2 tail ground.right) (by rw [List.append_assoc])

/-- The code behind the first arm of a branch, reached at its label, leaves the stack as it was. -/
theorem alternative_leads (no : Option Stmt) {next : Nat} {otherwise : Label} {front block : List Instr}
    (permits : ∀ call ∈ Stmt.alternativePoints a.site.window next no,
      s.Permits w a.site a.base a.floor call)
    (code : AlternativeCode a.site 0 next otherwise no block) (quiet : s.Quiet w front block) :
    s.Leads w (n + 1) a.floor a.base (s.address otherwise).toInt64 0
      (a.Behind (place (front ++ block))) 0 := by
  match no, code with
  | none, .none => exact .here (.inl ((address_eq quiet.stands).trans (place_marker otherwise).symm))
  | some t, .some arm =>
    rw [Stmt.alternativePoints] at permits
    rw [address_eq quiet.right.stands, ← place_marker otherwise]
    refine cast_behind (stmt_leads t permits arm quiet.right.right.ground.left) ?_
    refine (place_marker ⟨next⟩).symm.trans ?_
    simp only [List.append_assoc]

end

end Activation

end Scene

end GridStack
