import GridStack.Proofs.Draft.Reduction

/-!
# Generation with and without fusion

Fusion changes the code and nothing else: the labels, the count of words and the errors are those of
generation without it, and the code is that code reduced. `Emit.Fusible` says this of two parts of
generation as an equation: from the reduced draft the one with fusion ends with the draft reduced with which
the one without fusion ends, or fails with the same error. It holds of every instruction that is appended by
the definition of `Code.squeeze`, and is closed under one part behind another, so the proofs follow the tree
(`expr_fusible`, `stmt_fusible`).

The one place where code is put behind a draft by other means is the end of a function, where two pops take
the words of the caller. There the label of the end stands in front, and no push.
-/

namespace GridStack

/-- The same place with fusion or without. -/
def Site.fusing (site : Site) (fuse : Bool) : Site :=
  { site with fuse }

/-- The draft as it would be if it had been generated with fusion. -/
def Draft.squeezed (d : Draft) : Draft :=
  { d with reversed := Code.squeeze d.reversed }

/-- Without fusion every instruction is appended as it is. -/
theorem Draft.append_false (i : Instr) (code : List Instr) : append false i code = i :: code := by
  cases code with
  | nil => rfl
  | cons last before => rw [append, if_neg fun fused => Bool.false_ne_true fused.1]

namespace Emit

/-- Of two parts of generation the second one does with fusion what the first one does without it: from the
reduced draft it ends with the reduced draft, or with the same error. The first one appends simple
instructions. -/
structure Fusible {α : Type} (x y : Emit α) : Prop where
  run_eq : ∀ d : Draft, y d.squeezed = (x d).map fun r => (r.1, r.2.squeezed)
  simple : ∀ d a d', x d = .ok (a, d') → (∀ i ∈ d.reversed, i.Simple) → ∀ i ∈ d'.reversed, i.Simple

section Rules

variable {α β : Type} {site : Site}

/-- A value is given with fusion as without it. -/
theorem fusible_pure (a : α) : Fusible (pure a : Emit α) (pure a) where
  run_eq _ := rfl
  simple := by
    rintro d _ _ ⟨⟩ simple
    exact simple

/-- An error is the same with fusion. -/
theorem fusible_fail (e : CompileError) : Fusible (fail e : Emit α) (fail e) where
  run_eq _ := rfl
  simple := nofun

/-- The label that is taken is the same with fusion. -/
theorem fusible_fresh : Fusible fresh fresh where
  run_eq _ := rfl
  simple := by
    rintro d _ _ ⟨⟩ simple
    exact simple

/-- The count that is read is the same with fusion. -/
theorem fusible_depth : Fusible depth depth where
  run_eq _ := rfl
  simple := by
    rintro d _ _ ⟨⟩ simple
    exact simple

/-- The count is changed by the same number with fusion. -/
theorem fusible_adjust (change : Int) : Fusible (adjust change) (adjust change) where
  run_eq _ := rfl
  simple := by
    rintro d _ _ ⟨⟩ simple
    exact simple

/-- One part behind another. -/
theorem Fusible.bind {x y : Emit α} {f g : α → Emit β} (first : Fusible x y)
    (next : ∀ a, Fusible (f a) (g a)) : Fusible (x >>= f) (y >>= g) where
  run_eq d := by
    change Except.bind (y d.squeezed) (fun r => g r.1 r.2) =
      (Except.bind (x d) fun r => f r.1 r.2).map fun r => (r.1, r.2.squeezed)
    rw [first.run_eq]
    cases x d with
    | error e => rfl
    | ok r => exact (next r.1).run_eq r.2
  simple d b d' ok simple := by
    obtain ⟨a, between, h, h'⟩ := bind_ok ok
    exact (next a).simple between b d' h' (first.simple d a between h simple)

/-- A simple instruction. -/
theorem fusible_instr {i : Instr} (own : i.Simple) :
    Fusible (instr (site.fusing false) i) (instr (site.fusing true) i) where
  run_eq d := by
    unfold instr
    -- The check is on the count, which is the same in both drafts.
    by_cases short : d.depth + i.op.stackEffect < 0
    · have short' : d.squeezed.depth + i.op.stackEffect < 0 := short
      rw [if_pos short, if_pos short']
      rfl
    · have enough : ¬d.squeezed.depth + i.op.stackEffect < 0 := short
      rw [if_neg short, if_neg enough]
      unfold Draft.squeezed Site.fusing
      rw [Draft.append_false]
      rfl
  simple d a d' ok simple := by
    unfold instr at ok
    dsimp only at ok
    split at ok
    · contradiction
    · cases ok
      unfold Site.fusing
      rw [Draft.append_false]
      exact List.forall_mem_cons.2 ⟨own, simple⟩

/-- An instruction with one number. -/
theorem fusible_imm (op : Opcode) (n : Int32) :
    Fusible (imm (site.fusing false) op n) (imm (site.fusing true) op n) :=
  fusible_instr (Instr.simple_imm op n)

/-- An instruction without operands. -/
theorem fusible_plain (op : Opcode) (other : op ≠ .push ∧ op ≠ .pop) :
    Fusible (plain (site.fusing false) op) (plain (site.fusing true) op) :=
  fusible_instr (Instr.simple_of_op other.1 other.2)

/-- A label. -/
theorem fusible_mark (label : Label) :
    Fusible (mark (site.fusing false) label) (mark (site.fusing true) label) :=
  fusible_instr (Instr.simple_of_op nofun nofun)

/-- A constant. -/
theorem fusible_constant (operand : Operand) :
    Fusible (instr (site.fusing false) (.constant operand)) (instr (site.fusing true) (.constant operand)) :=
  fusible_instr (Instr.simple_of_op nofun nofun)

/-- A jump. -/
theorem fusible_jump (target : Operand) :
    Fusible (jump (site.fusing false) target) (jump (site.fusing true) target) :=
  (fusible_constant target).bind fun _ => fusible_imm _ _

/-- A conditional jump. -/
theorem fusible_jumpIfZero (target : Label) :
    Fusible (jumpIfZero (site.fusing false) target) (jumpIfZero (site.fusing true) target) :=
  (fusible_constant _).bind fun _ => (fusible_imm _ _).bind fun _ => fusible_imm _ _

/-- An instruction for each of several registers. -/
theorem fusible_each (op : Opcode) (rs : List Int32) :
    Fusible (each (site.fusing false) op rs) (each (site.fusing true) op rs) := by
  induction rs with
  | nil => exact fusible_pure ()
  | cons r rs ih => exact (fusible_imm op r).bind fun _ => ih

/-- A constant in front of an operator. -/
theorem fusible_composed (n : Int32) (op : Opcode) (other : op ≠ .push ∧ op ≠ .pop) :
    Fusible (do imm (site.fusing false) .const n; plain (site.fusing false) op)
      (do imm (site.fusing true) .const n; plain (site.fusing true) op) :=
  (fusible_imm _ _).bind fun _ => fusible_plain op other

/-- The code behind one operand. -/
theorem fusible_unary (op : UnaryOp) :
    Fusible (unary (site.fusing false) op) (unary (site.fusing true) op) := by
  cases op with
  | neg | not => exact fusible_composed _ _ (by decide)
  | complement => exact fusible_plain _ (by decide)

/-- The code behind two operands. -/
theorem fusible_binary (construct : Expr) (op : BinaryOp) :
    Fusible (binary (site.fusing false) construct op) (binary (site.fusing true) construct op) := by
  have isZero : Fusible (isZero (site.fusing false)) (isZero (site.fusing true)) :=
    fusible_composed 0 .equals (by decide)
  have increment : Fusible (increment (site.fusing false)) (increment (site.fusing true)) :=
    fusible_composed 1 .add (by decide)
  have negate : Fusible (negate (site.fusing false)) (negate (site.fusing true)) :=
    fusible_composed maxWord .mult (by decide)
  cases op with
  | bitOr | bitAnd | bitXor | shl | shr | add | mul | eq | lt => exact fusible_plain _ (by decide)
  | sub => exact negate.bind fun _ => fusible_plain .add (by decide)
  | ne => exact (fusible_plain .equals (by decide)).bind fun _ => isZero
  | le => exact increment.bind fun _ => fusible_plain .lessThan (by decide)
  | gt => exact increment.bind fun _ => (fusible_plain .lessThan (by decide)).bind fun _ => isZero
  | ge => exact (fusible_plain .lessThan (by decide)).bind fun _ => isZero
  | and | or | div | rem | ushr => exact fusible_fail _

/-- The register of a variable. -/
theorem fusible_register (name : String) :
    Fusible (register (site.fusing false) name) (register (site.fusing true) name) := by
  -- Whether code is fused is not looked at.
  have same : register (site.fusing true) name = register (site.fusing false) name := rfl
  rw [same]
  unfold register
  split
  · exact fusible_pure _
  · exact fusible_fail _

/-- The function that a call is for. -/
theorem fusible_callee (called : Call) (asValue : Bool) :
    Fusible (callee (site.fusing false) called asValue) (callee (site.fusing true) called asValue) := by
  have same : callee (site.fusing true) called asValue = callee (site.fusing false) called asValue := rfl
  rw [same]
  unfold callee
  split
  · exact fusible_fail _
  · split
    · exact fusible_fail _
    · split
      · exact fusible_fail _
      · exact fusible_pure _

/-- The code in front of the arguments of a call. -/
theorem fusible_callBegin : Fusible (callBegin (site.fusing false)) (callBegin (site.fusing true)) :=
  (fusible_each .push _).bind fun _ => fusible_fresh.bind fun _ => (fusible_constant _).bind fun _ =>
    (fusible_imm _ _).bind fun _ => fusible_depth.bind fun _ => fusible_pure _

/-- The code behind the arguments of a call. -/
theorem fusible_callEnd (f : Callee) (resume : Label) (offset : Int) :
    Fusible (callEnd (site.fusing false) f resume offset) (callEnd (site.fusing true) f resume offset) :=
  (fusible_imm _ _).bind fun _ => (fusible_imm _ _).bind fun _ =>
    (fusible_plain .add (by decide)).bind fun _ => (fusible_imm _ _).bind fun _ => (fusible_jump _).bind fun _ =>
      (fusible_mark _).bind fun _ => (fusible_adjust _).bind fun _ => fusible_each .pop _

end Rules

section Trees

variable {site : Site}

/-- Generation of an expression. -/
abbrev FusibleExpr (site : Site) (e : Expr) : Prop :=
  Fusible (expr (site.fusing false) e) (expr (site.fusing true) e)

/-- A call, given its arguments. -/
theorem fusible_call {called : Call} (asValue : Bool)
    (values : Fusible (exprs (site.fusing false) called.args) (exprs (site.fusing true) called.args)) :
    Fusible (call (site.fusing false) called asValue) (call (site.fusing true) called asValue) :=
  (fusible_callee called asValue).bind fun f => fusible_callBegin.bind fun (resume, offset) =>
    values.bind fun _ => fusible_callEnd f resume offset

mutual

/-- Generation of an expression. -/
theorem expr_fusible (e : Expr) : FusibleExpr site e := by
  match e with
  | .int n =>
    unfold FusibleExpr
    rw [expr, expr]
    cases literalWord? n with
    | none => exact fusible_fail _
    | some word => exact fusible_imm _ _
  | .var name =>
    unfold FusibleExpr
    rw [expr, expr]
    exact (fusible_register name).bind fun _ => fusible_imm _ _
  | .paren inner =>
    unfold FusibleExpr
    rw [expr, expr]
    exact expr_fusible inner
  | .unary op operand =>
    unfold FusibleExpr
    rw [expr, expr]
    exact (expr_fusible operand).bind fun _ => fusible_unary op
  | .binary op lhs rhs =>
    unfold FusibleExpr
    rcases op.forms with rfl | rfl | ⟨conjunction, disjunction⟩
    · rw [expr, expr]
      exact fusible_fresh.bind fun _ => fusible_fresh.bind fun _ => (expr_fusible lhs).bind fun _ =>
        (fusible_jumpIfZero _).bind fun _ => (expr_fusible rhs).bind fun _ => (fusible_jump _).bind fun _ =>
          (fusible_mark _).bind fun _ => (fusible_imm _ _).bind fun _ => (fusible_mark _).bind fun _ =>
            fusible_adjust _
    · rw [expr, expr]
      exact fusible_fresh.bind fun _ => fusible_fresh.bind fun _ => (expr_fusible lhs).bind fun _ =>
        (fusible_jumpIfZero _).bind fun _ => (fusible_imm _ _).bind fun _ => (fusible_jump _).bind fun _ =>
          (fusible_mark _).bind fun _ => (expr_fusible rhs).bind fun _ => (fusible_mark _).bind fun _ =>
            fusible_adjust _
    · rw [expr_binary conjunction disjunction, expr_binary conjunction disjunction]
      exact (expr_fusible lhs).bind fun _ => (expr_fusible rhs).bind fun _ => fusible_binary _ op
  | .call name args receiver typeArgs =>
    unfold FusibleExpr
    by_cases input : name = inputName
    · rw [expr, if_pos input, expr, if_pos input]
      split
      · exact fusible_fail _
      · exact (exprs_fusible args).bind fun _ => (fusible_plain .input (by decide)).bind fun _ => fusible_imm _ _
    · by_cases output : name = outputName
      · rw [expr, if_neg input, if_pos output, expr, if_neg input, if_pos output]
        exact fusible_fail _
      · rw [expr_call input output, expr_call input output]
        exact (fusible_call true (exprs_fusible args)).bind fun _ => fusible_imm _ _
  | .assign op target value =>
    unfold FusibleExpr
    rw [expr, expr]
    exact fusible_fail _

/-- Generation of expressions. -/
theorem exprs_fusible (es : List Expr) :
    Fusible (exprs (site.fusing false) es) (exprs (site.fusing true) es) := by
  match es with
  | [] =>
    rw [exprs, exprs]
    exact fusible_pure ()
  | e :: es =>
    rw [exprs, exprs]
    exact (expr_fusible e).bind fun _ => exprs_fusible es

end

/-- Generation of an assignment. -/
theorem fusible_assignment (name : String) (value : Expr) :
    Fusible (assignment (site.fusing false) name value) (assignment (site.fusing true) name value) :=
  (fusible_register name).bind fun _ => (expr_fusible value).bind fun _ => fusible_imm _ _

/-- Generation of an expression that is a statement. -/
theorem effect_fusible (e : Expr) :
    Fusible (effect (site.fusing false) e) (effect (site.fusing true) e) := by
  match e with
  | .assign op target value => exact fusible_assignment target value
  | .call name args receiver typeArgs =>
    by_cases output : name = outputName
    · rw [effect, if_pos output, effect, if_pos output]
      split
      · exact fusible_fail _
      · exact (exprs_fusible args).bind fun _ => (fusible_imm _ _).bind fun _ =>
          fusible_plain .output (by decide)
    · by_cases input : name = inputName
      · rw [effect, if_neg output, if_pos input, effect, if_neg output, if_pos input]
        exact fusible_fail _
      · rw [effect_call input output, effect_call input output]
        exact fusible_call false (exprs_fusible args)
  | .int _ | .var _ | .paren _ | .unary _ _ | .binary _ _ _ => exact fusible_fail _

/-- Generation of a local declaration. -/
theorem declaration_fusible (decl : VarDecl) :
    Fusible (declaration (site.fusing false) decl) (declaration (site.fusing true) decl) := by
  unfold declaration
  split
  · exact fusible_assignment _ _
  · exact fusible_fail _

/-- Generation of a result. -/
theorem result_fusible (value : Option Expr) :
    Fusible (result (site.fusing false) value) (result (site.fusing true) value) := by
  cases value with
  | none => exact fusible_pure ()
  | some e => exact (expr_fusible e).bind fun _ => fusible_imm _ _

mutual

/-- Generation of a statement. -/
theorem stmt_fusible (s : Stmt) : Fusible (stmt (site.fusing false) s) (stmt (site.fusing true) s) := by
  match s with
  | .block body =>
    rw [stmt, stmt]
    exact stmts_fusible body
  | .expr e =>
    rw [stmt, stmt]
    exact effect_fusible e
  | .declare decl =>
    rw [stmt, stmt]
    exact declaration_fusible decl
  | .branch cond yes no =>
    rw [stmt, stmt]
    exact fusible_fresh.bind fun otherwise => (expr_fusible cond).bind fun _ =>
      (fusible_jumpIfZero _).bind fun _ => (stmt_fusible yes).bind fun _ => alternative_fusible otherwise no
  | .loop cond body =>
    rw [stmt, stmt]
    exact fusible_fresh.bind fun _ => fusible_fresh.bind fun _ => (fusible_mark _).bind fun _ =>
      (expr_fusible cond).bind fun _ => (fusible_jumpIfZero _).bind fun _ => (stmt_fusible body).bind
        fun _ => (fusible_jump _).bind fun _ => fusible_mark _
  | .ret value =>
    rw [stmt, stmt]
    exact (result_fusible value).bind fun _ => fusible_jump _

/-- Generation of statements. -/
theorem stmts_fusible (ss : List Stmt) :
    Fusible (stmts (site.fusing false) ss) (stmts (site.fusing true) ss) := by
  match ss with
  | [] =>
    rw [stmts, stmts]
    exact fusible_pure ()
  | s :: rest =>
    rw [stmts, stmts]
    exact (stmt_fusible s).bind fun _ => stmts_fusible rest

/-- Generation of what follows the first arm of a branch. -/
theorem alternative_fusible (otherwise : Label) (no : Option Stmt) :
    Fusible (alternative (site.fusing false) otherwise no) (alternative (site.fusing true) otherwise no) := by
  match no with
  | none =>
    rw [alternative, alternative]
    exact fusible_mark _
  | some s =>
    rw [alternative, alternative]
    exact fusible_fresh.bind fun _ => (fusible_jump _).bind fun _ => (fusible_mark _).bind fun _ =>
      (stmt_fusible s).bind fun _ => fusible_mark _

end

/-- The label of the end, and the caller's words behind it, are put behind the draft as they are. -/
theorem squeeze_leave (exit : Label) (reversed : List Instr) :
    Code.squeeze (.imm .pop Register.pc :: .imm .pop Register.base :: .marker exit :: reversed)
      = .imm .pop Register.pc :: .imm .pop Register.base :: .marker exit :: Code.squeeze reversed := by
  have label : Code.squeeze (.marker exit :: reversed) = .marker exit :: Code.squeeze reversed :=
    Draft.append_eq_cons (.inl rfl)
  rw [Code.squeeze_cons, Code.squeeze_cons, label]
  rfl

/-- The end of a function other than `main`, with its label in front. -/
theorem leave_eq (site : Site) (other : ¬site.function.isMain) (exit : Label) (d : Draft) :
    (do mark site exit; epilogue site : Emit Unit) d =
      if d.depth < 0 then .error (.stackUnderflow site.function.name (.marker exit))
      else if d.depth ≠ 0 then .error (.stackMismatch site.function.name d.depth)
      else .ok ((), ⟨d.nextLabel, -2,
        .imm .pop Register.pc :: .imm .pop Register.base :: .marker exit :: d.reversed⟩) := by
  have label : Draft.append site.fuse (.marker exit) d.reversed = .marker exit :: d.reversed :=
    Draft.append_eq_cons (.inl rfl)
  have still : d.depth + (Instr.marker exit).op.stackEffect = d.depth := Int.add_zero _
  change Except.bind (instr site (.marker exit) d) (fun r => epilogue site r.2) = _
  unfold instr
  rw [still, label]
  by_cases short : d.depth < 0
  · rw [if_pos short, if_pos short]
    rfl
  · rw [if_neg short, if_neg short]
    change (if d.depth ≠ 0 then _ else _ : Emit Unit) _ = _
    by_cases rest : d.depth ≠ 0
    · rw [if_pos rest, if_pos rest]
      rfl
    · rw [if_neg rest, if_neg rest, if_neg other, Decidable.not_not.1 rest]
      rfl

/-- Generation of the end of a function, with its label in front. -/
theorem end_fusible (exit : Label) :
    Fusible (do mark (site.fusing false) exit; epilogue (site.fusing false))
      (do mark (site.fusing true) exit; epilogue (site.fusing true)) := by
  by_cases main : site.function.isMain
  · -- The jump at the end of `main` is appended like any other.
    refine (fusible_mark exit).bind fun _ => fusible_depth.bind fun words => ?_
    by_cases empty : words ≠ 0
    · rw [if_pos empty, if_pos empty]
      exact fusible_fail _
    · have plain : (site.fusing false).function.isMain := main
      have fused : (site.fusing true).function.isMain := main
      rw [if_neg empty, if_neg empty, if_pos plain, if_pos fused]
      exact fusible_jump _
  · -- The pops are put behind the draft without being appended, so both runs are written out.
    refine ⟨fun d => ?_, fun d a d' ok simple => ?_⟩
    · rw [leave_eq (site.fusing true) main, leave_eq (site.fusing false) main]
      unfold Draft.squeezed
      by_cases short : d.depth < 0
      · rw [if_pos short, if_pos short]
        rfl
      · by_cases rest : d.depth ≠ 0
        · rw [if_neg short, if_neg short, if_pos rest, if_pos rest]
          rfl
        · rw [if_neg short, if_neg short, if_neg rest, if_neg rest, Except.map, squeeze_leave]
    · rw [leave_eq (site.fusing false) main] at ok
      split at ok
      · contradiction
      · split at ok
        · contradiction
        · cases ok
          simp only [List.forall_mem_cons]
          exact ⟨Instr.simple_imm _ _, Instr.simple_imm _ _, Instr.simple_of_op nofun nofun, simple⟩

/-- Generation of a function. -/
theorem function_fusible (site : Site) (entry : Label) :
    Fusible (function (site.fusing false) entry) (function (site.fusing true) entry) :=
  (fusible_mark entry).bind fun _ => (fusible_each .pop _).bind fun _ =>
    (stmts_fusible site.function.body).bind fun _ => end_fusible site.exit

end Trees

end Emit

end GridStack
