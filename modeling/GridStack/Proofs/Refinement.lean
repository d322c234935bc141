import GridStack.Proofs.Lowered

/-!
# Evaluations that know less

An evaluation on registers may begin without knowing what a register holds, or what has been written
before. `Lowered.Refines` says that an evaluation that knows more does the same, unless the one that knows
less is stuck: what was known stays the same, and the writes come on top of those made before. Every form of
the tree keeps this, and so do calls (`Lowered.function_refines`).
-/

namespace GridStack

/-- Less is known of the registers, and nothing of the earlier writes. -/
structure Cells.Below (earlier : List Write) (cells cells' : Cells) : Prop where
  vars_le : ∀ i x, cells.vars i = some x → cells'.vars i = some x
  log_eq : cells'.log = cells.log ++ earlier
  scratch_le : ∀ x, cells.scratch = some x → cells'.scratch = some x

namespace Lowered

/-- The end of an evaluation that knows less: it is stuck, or the same. -/
inductive Outcome.Below {α : Type} (earlier : List Write) : Outcome α → Outcome α → Prop
  | stuck {log : List Write} {outcome : Outcome α} : Below earlier (.stop .stuck log) outcome
  | stop {reason : Stop} {log : List Write} :
      Below earlier (.stop reason log) (.stop reason (log ++ earlier))
  | value {result : α} {cells cells' : Cells} (below : cells.Below earlier cells') :
      Below earlier (.value result cells) (.value result cells')

/-- An evaluation that knows more does the same. -/
def Refines {α : Type} (x y : Lowered α) : Prop :=
  ∀ (earlier : List Write) (cells cells' : Cells), cells.Below earlier cells' →
    (x cells).Below earlier (y cells')

namespace Refines

variable {α β : Type} {x y : Lowered α}

/-- A value refines itself. -/
theorem pure (result : α) : Refines (Pure.pure result) (Pure.pure result) :=
  fun _ _ _ below => .value below

/-- An evaluation that stops refines itself. -/
theorem stop (reason : Stop) : Refines (Lowered.stop reason : Lowered α) (Lowered.stop reason) := by
  intro earlier cells cells' below
  unfold Lowered.stop
  rw [below.log_eq]
  exact .stop

/-- One evaluation behind another. -/
theorem bind {f g : α → Lowered β} (h : Refines x y) (h' : ∀ result, Refines (f result) (g result)) :
    Refines (x >>= f) (y >>= g) := by
  intro earlier cells cells' below
  have first := h earlier cells cells' below
  show Outcome.Below earlier (andThen x f cells) (andThen y g cells')
  unfold andThen
  generalize x cells = outcome at first
  generalize y cells' = outcome' at first
  cases first with
  | stuck => exact .stuck
  | stop => exact .stop
  | value below => exact h' _ _ _ _ below

/-- Reading a variable. -/
theorem readVar (f : CheckedFunction) (name : String) :
    Refines (Lowered.readVar f name) (Lowered.readVar f name) := by
  intro earlier cells cells' below
  unfold Lowered.readVar
  split
  · next index _ =>
    cases known : cells.vars index with
    -- What is not known of the variable stops only the evaluation that knows less.
    | none => exact .stuck
    | some x =>
      rw [below.vars_le index x known]
      exact .value below
  · exact .stuck

/-- Writing a variable. -/
theorem writeVar (f : CheckedFunction) (name : String) (value : Int64) :
    Refines (Lowered.writeVar f name value) (Lowered.writeVar f name value) := by
  intro earlier cells cells' below
  unfold Lowered.writeVar
  split
  · next index _ =>
    refine .value ⟨fun i x known => ?_, below.log_eq, below.scratch_le⟩
    by_cases written : i = index
    · simpa only [if_pos written] using known
    · simp only [if_neg written] at known ⊢
      exact below.vars_le i x known
  · exact .stuck

/-- Using what the scratch register holds. -/
theorem readScratch : Refines Lowered.readScratch Lowered.readScratch := by
  intro earlier cells cells' below
  unfold Lowered.readScratch
  cases known : cells.scratch with
  | none => exact .stuck
  | some x =>
    rw [below.scratch_le x known]
    exact .value below

/-- Leaving something in the scratch register of which less is known. -/
theorem writeScratch {content content' : Option Int64} (le : ∀ x, content = some x → content' = some x) :
    Refines (Lowered.writeScratch content) (Lowered.writeScratch content') :=
  fun _ _ _ below => .value ⟨below.vars_le, below.log_eq, le⟩

/-- Writing a cell. -/
theorem output (values : List Int64) : Refines (Lowered.output values) (Lowered.output values) := by
  match values with
  | [x, y, value] =>
    exact fun _ _ _ below =>
      .value ⟨below.vars_le, congrArg (⟨x, y, value⟩ :: ·) below.log_eq, fun _ eq => eq⟩
  | [] | [_] | [_, _] | _ :: _ :: _ :: _ :: _ => exact .stop .stuck

/-- Keeping registers. -/
theorem saving {x y : Lowered Unit} (h : Refines x y) (f : CheckedFunction) :
    Refines (Lowered.saving f x) (Lowered.saving f y) := by
  intro earlier cells cells' below
  have inner := h earlier cells cells' below
  unfold Lowered.saving
  generalize x cells = outcome at inner
  generalize y cells' = outcome' at inner
  cases inner with
  | stuck => exact .stuck
  | stop => exact .stop
  | value after =>
    refine .value ⟨fun i x known => ?_, after.log_eq, after.scratch_le⟩
    -- What is put back was known before, and the rest behind what is done in between.
    by_cases kept : i < f.vars.length
    · simp only [if_pos kept] at known ⊢
      exact below.vars_le i x known
    · simp only [if_neg kept] at known ⊢
      exact after.vars_le i x known

/-- Entering a function. -/
theorem enter (f : CheckedFunction) (args : List Int64) :
    Refines (Lowered.enter f args) (Lowered.enter f args) := by
  intro earlier cells cells' below
  refine .value ⟨fun i x known => ?_, below.log_eq, below.scratch_le⟩
  by_cases param : i < f.params
  · simpa only [if_pos param] using known
  · simp only [if_neg param] at known ⊢
    exact below.vars_le i x known

end Refines

/-- A world that leaves less in the scratch register. -/
structure World.Below (w w' : World) : Prop where
  find_eq : w.find? = w'.find?
  grid_eq : w.grid = w'.grid
  residue_le : ∀ label x, w.residue label = some x → w'.residue label = some x

section Body

variable {w w' : World} {f : CheckedFunction} {call call' : String → List Int64 → Lowered Unit}

/-- Reading a cell. -/
theorem input_refines (le : w.Below w') (values : List Int64) :
    Refines (input w values) (input w' values) := by
  match values with
  | [x, y] =>
    unfold input
    rw [le.grid_eq]
    exact (Refines.writeScratch fun _ eq => eq).bind fun _ => .pure _
  | [] | [_] | _ :: _ :: _ :: _ => exact .stop .stuck

mutual

/-- The value of an expression. -/
theorem expr_refines (le : w.Below w') (calls : ∀ name args, Refines (call name args) (call' name args))
    (next : Nat) (e : Expr) : Refines (expr w f call next e) (expr w' f call' next e) := by
  match e with
  | .int n =>
    rw [expr, expr]
    cases literalWord? n with
    | none => exact .stop .stuck
    | some word => exact .pure _
  | .var name =>
    rw [expr, expr]
    exact .readVar f name
  | .paren inner =>
    rw [expr, expr]
    exact expr_refines le calls next inner
  | .unary op operand =>
    rw [expr, expr]
    exact (expr_refines le calls next operand).bind fun _ => .pure _
  | .binary op lhs rhs =>
    rcases op.forms with rfl | rfl | ⟨conjunction, disjunction⟩
    · rw [expr, expr]
      refine (expr_refines le calls _ lhs).bind fun x => (Refines.writeScratch (le.residue_le next)).bind
        fun _ => ?_
      split
      · exact .pure _
      · exact expr_refines le calls _ rhs
    · rw [expr, expr]
      refine (expr_refines le calls _ lhs).bind fun x => (Refines.writeScratch (le.residue_le next)).bind
        fun _ => ?_
      split
      · exact expr_refines le calls _ rhs
      · exact .pure _
    · rw [expr_binary _ _ _ conjunction disjunction, expr_binary _ _ _ conjunction disjunction]
      refine (expr_refines le calls _ lhs).bind fun x => (expr_refines le calls _ rhs).bind fun y => ?_
      cases op.lowered? with
      | none => exact .stop .stuck
      | some g => exact .pure _
  | .call name args receiver typeArgs =>
    rw [expr, expr]
    split
    · exact (exprs_refine le calls next args).bind fun values => input_refines le values
    · exact (((exprs_refine le calls _ args).bind fun values => calls name values).saving f).bind
        fun _ => .readScratch
  | .assign op target value =>
    rw [expr, expr]
    exact .stop .stuck

/-- The values of expressions. -/
theorem exprs_refine (le : w.Below w') (calls : ∀ name args, Refines (call name args) (call' name args))
    (next : Nat) (es : List Expr) : Refines (exprs w f call next es) (exprs w' f call' next es) := by
  match es with
  | [] =>
    rw [exprs, exprs]
    exact .pure _
  | e :: es =>
    rw [exprs, exprs]
    exact (expr_refines le calls next e).bind fun _ => (exprs_refine le calls _ es).bind fun _ => .pure _

end

/-- The effect of an expression that is a statement. -/
theorem effect_refines (le : w.Below w')
    (calls : ∀ name args, Refines (call name args) (call' name args)) (next : Nat) (e : Expr) :
    Refines (effect w f call next e) (effect w' f call' next e) := by
  cases e with
  | assign op target value =>
    exact (expr_refines le calls next value).bind fun x => .writeVar f target x
  | call name args receiver typeArgs =>
    rw [effect, effect]
    split
    · exact (exprs_refine le calls next args).bind fun values => .output values
    · exact ((exprs_refine le calls _ args).bind fun values => calls name values).saving f
  | int _ | var _ | paren _ | unary _ _ | binary _ _ _ => exact .stop .stuck

/-- The effect of a local declaration. -/
theorem declaration_refines (le : w.Below w')
    (calls : ∀ name args, Refines (call name args) (call' name args)) (next : Nat) (decl : VarDecl) :
    Refines (declaration w f call next decl) (declaration w' f call' next decl) := by
  unfold declaration
  split
  · exact (expr_refines le calls next _).bind fun x => .writeVar f _ x
  · exact .stop .stuck

/-- The result of a function. -/
theorem result_refines (le : w.Below w')
    (calls : ∀ name args, Refines (call name args) (call' name args)) (next : Nat) (value : Option Expr) :
    Refines (result w f call next value) (result w' f call' next value) := by
  cases value with
  | none => exact .pure _
  | some e => exact (expr_refines le calls next e).bind fun x => .writeScratch fun _ eq => eq

/-- The rounds of a loop. -/
theorem rounds_refine {cond cond' : Lowered Int64} {leave leave' : Lowered Unit}
    {body body' : Lowered Flow} (test : Refines cond cond') (jump : Refines leave leave')
    (round : Refines body body') (fuel : Nat) :
    Refines (rounds cond leave body fuel) (rounds cond' leave' body' fuel) := by
  induction fuel with
  | zero => exact .stop .timeout
  | succ fuel ih =>
    rw [rounds, rounds]
    refine test.bind fun x => jump.bind fun _ => ?_
    split
    · exact .pure _
    · refine round.bind fun flow => ?_
      cases flow with
      | onward => exact ih
      | returned => exact .pure _

section Statement

variable (fuel : Nat)

mutual

/-- The effect of a statement. -/
theorem stmt_refines (le : w.Below w') (calls : ∀ name args, Refines (call name args) (call' name args))
    (next : Nat) (s : Stmt) : Refines (stmt w f call fuel next s) (stmt w' f call' fuel next s) := by
  match s with
  | .block body =>
    rw [stmt, stmt]
    exact stmts_refine le calls next body
  | .expr e =>
    rw [stmt, stmt]
    exact (effect_refines le calls next e).bind fun _ => .pure _
  | .declare decl =>
    rw [stmt, stmt]
    exact (declaration_refines le calls next decl).bind fun _ => .pure _
  | .branch cond yes no =>
    rw [stmt, stmt]
    refine (expr_refines le calls _ cond).bind fun x => (Refines.writeScratch (le.residue_le next)).bind
      fun _ => ?_
    split
    · exact alternative_refines le calls _ no
    · exact stmt_refines le calls _ yes
  | .loop cond body =>
    rw [stmt, stmt]
    exact rounds_refine (expr_refines le calls _ cond) (.writeScratch (le.residue_le _))
      (stmt_refines le calls _ body) fuel
  | .ret value =>
    rw [stmt, stmt]
    exact (result_refines le calls next value).bind fun _ => .pure _

/-- The effect of statements. -/
theorem stmts_refine (le : w.Below w') (calls : ∀ name args, Refines (call name args) (call' name args))
    (next : Nat) (ss : List Stmt) :
    Refines (stmts w f call fuel next ss) (stmts w' f call' fuel next ss) := by
  match ss with
  | [] =>
    rw [stmts, stmts]
    exact .pure _
  | s :: rest =>
    rw [stmts, stmts]
    refine (stmt_refines le calls next s).bind fun flow => ?_
    cases flow with
    | onward => exact stmts_refine le calls _ rest
    | returned => exact .pure _

/-- The effect of the second arm of a branch. -/
theorem alternative_refines (le : w.Below w')
    (calls : ∀ name args, Refines (call name args) (call' name args)) (next : Nat) (no : Option Stmt) :
    Refines (alternative w f call fuel next no) (alternative w' f call' fuel next no) := by
  match no with
  | none =>
    rw [alternative, alternative]
    exact .pure _
  | some s =>
    rw [alternative, alternative]
    exact stmt_refines le calls _ s

end

end Statement

/-- A call. -/
theorem function_refines (le : w.Below w') (fuel : Nat) (name : String) (args : List Int64) :
    Refines (function w fuel name args) (function w' fuel name args) := by
  -- The calls in the body have one unit of fuel less, whatever functions they are to.
  induction fuel generalizing name args with
  | zero => exact .stop .timeout
  | succ fuel ih =>
    rw [function, function, le.find_eq]
    split
    · exact .stop .stuck
    · next f exit _ =>
      refine (Refines.enter f args).bind fun _ => (stmts_refine fuel le ih _ f.body).bind fun _ => ?_
      split
      · exact .stop .halted
      · exact .pure _

end Body

end Lowered

end GridStack
