import Mathlib.Data.List.Nodup
import GridStack.Proofs.Draft.Stored

/-!
# Where calls are made

The count of words that generation keeps is not always the number of words on the stack: in the right
operand of `||` it is one too high, as the word that the other arm leaves is still counted there.
`Expr.callees` and `Stmt.callees` list the functions that a tree calls, with the excess of the count at
the call.

`Expr.points` and `Stmt.points` are these calls one by one, each with the number of words that lie on the
stack in front of it and the label that its callee comes back to. The labels tell the calls of a function
apart (`Stmt.ordered_pointsOfAll`), and so do the places of the labels: the code of a call ends with a jump
right in front of its own (`FunctionCode.returns`).
-/

namespace GridStack

mutual

/-- The functions that an expression calls, each with the number of words by which the count is too high
at the call, if it is so by `excess` words at the expression. -/
def Expr.callees (excess : Nat) : Expr → List (String × Nat)
  | .int _ | .var _ => []
  | .paren inner => inner.callees excess
  | .unary _ operand => operand.callees excess
  | .binary op lhs rhs =>
    lhs.callees excess ++ rhs.callees (if op = .or then excess + 1 else excess)
  | .assign _ _ value => value.callees excess
  | .call name args _ _ => (name, excess) :: Expr.calleesOfAll excess args

/-- The functions that expressions call, with the excess of the count. -/
def Expr.calleesOfAll (excess : Nat) : List Expr → List (String × Nat)
  | [] => []
  | e :: es => e.callees excess ++ Expr.calleesOfAll excess es

end

mutual

/-- The functions that a statement calls, with the excess of the count. -/
def Stmt.callees : Stmt → List (String × Nat)
  | .block body => Stmt.calleesOfAll body
  | .expr value => value.callees 0
  | .declare decl =>
    decl.declarators.flatMap fun declarator => declarator.init.elim [] (Expr.callees 0)
  | .branch cond yes no => cond.callees 0 ++ (yes.callees ++ Stmt.alternativeCallees no)
  | .loop cond body => cond.callees 0 ++ body.callees
  | .ret value => value.elim [] (Expr.callees 0)

/-- The functions that statements call, with the excess of the count. -/
def Stmt.calleesOfAll : List Stmt → List (String × Nat)
  | [] => []
  | s :: rest => s.callees ++ Stmt.calleesOfAll rest

/-- The functions that the second arm of a branch calls, with the excess of the count. -/
def Stmt.alternativeCallees : Option Stmt → List (String × Nat)
  | none => []
  | some no => no.callees

end

/-- A call in the code of a function. -/
structure CallPoint where
  name : String
  /-- The number of words of the function that lie on the stack when the call begins. -/
  words : Nat
  /-- By how many words the count is too high there. -/
  excess : Nat
  /-- The place that the callee comes back to. -/
  resume : Label
deriving DecidableEq

mutual

/-- The calls in the code of an expression, where some words of the function are on the stack, the count is
too high by `excess` words, and labels are free from `next` on. Besides the arguments a call puts `window`
words on the stack. -/
def Expr.points (window words excess next : Nat) : Expr → List CallPoint
  | .int _ | .var _ => []
  | .paren inner => inner.points window words excess next
  | .unary _ operand => operand.points window words excess next
  | .binary op lhs rhs =>
    if op = .and then
      lhs.points window words excess (next + 2) ++ rhs.points window words excess (next + 2 + lhs.labels)
    else if op = .or then
      lhs.points window words excess (next + 2) ++
        rhs.points window words (excess + 1) (next + 2 + lhs.labels)
    else
      lhs.points window words excess next ++ rhs.points window (words + 1) excess (next + lhs.labels)
  | .assign _ _ _ => []
  | .call name args _ _ =>
    if name = inputName then
      Expr.pointsOfAll window words excess next args
    else
      ⟨name, words, excess, ⟨next⟩⟩ :: Expr.pointsOfAll window (words + window) excess (next + 1) args

/-- The calls in the code of expressions. -/
def Expr.pointsOfAll (window words excess next : Nat) : List Expr → List CallPoint
  | [] => []
  | e :: es =>
    e.points window words excess next ++ Expr.pointsOfAll window (words + 1) excess (next + e.labels) es

end

/-- The calls in the code of an expression that is a statement. -/
def Expr.effectPoints (window next : Nat) : Expr → List CallPoint
  | .assign _ _ value => value.points window 0 0 next
  | .call name args _ _ =>
    if name = outputName then
      Expr.pointsOfAll window 0 0 next args
    else
      ⟨name, 0, 0, ⟨next⟩⟩ :: Expr.pointsOfAll window (0 + window) 0 (next + 1) args
  | _ => []

/-- The calls in the code of a local declaration. -/
def VarDecl.points (window next : Nat) (decl : VarDecl) : List CallPoint :=
  match decl.declarators with
  | [⟨_, some init⟩] => init.points window 0 0 next
  | _ => []

/-- The calls in the code of a result. -/
def Expr.resultPoints (window next : Nat) : Option Expr → List CallPoint
  | none => []
  | some value => value.points window 0 0 next

mutual

/-- The calls in the code of a statement. -/
def Stmt.points (window next : Nat) : Stmt → List CallPoint
  | .block body => Stmt.pointsOfAll window next body
  | .expr value => value.effectPoints window next
  | .declare decl => decl.points window next
  | .branch cond yes no =>
    cond.points window 0 0 (next + 1) ++ (yes.points window (next + 1 + cond.labels) ++
      Stmt.alternativePoints window (next + 1 + cond.labels + yes.labels) no)
  | .loop cond body =>
    cond.points window 0 0 (next + 2) ++ body.points window (next + 2 + cond.labels)
  | .ret value => Expr.resultPoints window next value

/-- The calls in the code of statements. -/
def Stmt.pointsOfAll (window next : Nat) : List Stmt → List CallPoint
  | [] => []
  | s :: rest => s.points window next ++ Stmt.pointsOfAll window (next + s.labels) rest

/-- The calls in the code of the second arm of a branch. -/
def Stmt.alternativePoints (window next : Nat) : Option Stmt → List CallPoint
  | none => []
  | some s => s.points window (next + 1)

end

section Callees

variable {window next : Nat} {p : CallPoint}

mutual

/-- The calls in the code of an expression are calls in the expression. -/
theorem Expr.mem_callees (e : Expr) {words excess next : Nat}
    (mem : p ∈ e.points window words excess next) : (p.name, p.excess) ∈ e.callees excess := by
  match e with
  | .int _ | .var _ | .assign _ _ _ =>
    rw [Expr.points] at mem
    contradiction
  | .paren inner =>
    rw [Expr.points] at mem
    rw [Expr.callees]
    exact mem_callees inner mem
  | .unary _ operand =>
    rw [Expr.points] at mem
    rw [Expr.callees]
    exact mem_callees operand mem
  | .binary op lhs rhs =>
    rw [Expr.points] at mem
    rw [Expr.callees, List.mem_append]
    rcases op.forms with rfl | rfl | ⟨conjunction, disjunction⟩
    · rw [if_pos rfl, List.mem_append] at mem
      rw [if_neg (by decide)]
      exact mem.imp (mem_callees lhs) (mem_callees rhs)
    · rw [if_neg (by decide), if_pos rfl, List.mem_append] at mem
      rw [if_pos rfl]
      exact mem.imp (mem_callees lhs) (mem_callees rhs)
    · rw [if_neg conjunction, if_neg disjunction, List.mem_append] at mem
      rw [if_neg disjunction]
      exact mem.imp (mem_callees lhs) (mem_callees rhs)
  | .call name args _ _ =>
    rw [Expr.points] at mem
    rw [Expr.callees]
    split at mem
    · exact List.mem_cons_of_mem _ (mem_calleesOfAll args mem)
    · rcases List.mem_cons.1 mem with rfl | inner
      · exact List.mem_cons_self
      · exact List.mem_cons_of_mem _ (mem_calleesOfAll args inner)

/-- The calls in the code of expressions are calls in the expressions. -/
theorem Expr.mem_calleesOfAll (es : List Expr) {words excess next : Nat}
    (mem : p ∈ Expr.pointsOfAll window words excess next es) :
    (p.name, p.excess) ∈ Expr.calleesOfAll excess es := by
  match es with
  | [] =>
    rw [Expr.pointsOfAll] at mem
    contradiction
  | e :: es =>
    rw [Expr.pointsOfAll, List.mem_append] at mem
    rw [Expr.calleesOfAll, List.mem_append]
    exact mem.imp (mem_callees e) (mem_calleesOfAll es)

end

/-- The calls in the code of an expression that is a statement are calls in the expression. -/
theorem Expr.mem_callees_of_effect {e : Expr} (mem : p ∈ e.effectPoints window next) :
    (p.name, p.excess) ∈ e.callees 0 := by
  unfold Expr.effectPoints at mem
  split at mem
  · rw [Expr.callees]
    exact Expr.mem_callees _ mem
  · rw [Expr.callees]
    split at mem
    · exact List.mem_cons_of_mem _ (Expr.mem_calleesOfAll _ mem)
    · rcases List.mem_cons.1 mem with rfl | inner
      · exact List.mem_cons_self
      · exact List.mem_cons_of_mem _ (Expr.mem_calleesOfAll _ inner)
  · contradiction

mutual

/-- The calls in the code of a statement are calls in the statement. -/
theorem Stmt.mem_callees (s : Stmt) {next : Nat} (mem : p ∈ s.points window next) :
    (p.name, p.excess) ∈ s.callees := by
  match s with
  | .block body =>
    rw [Stmt.points] at mem
    rw [Stmt.callees]
    exact mem_calleesOfAll body mem
  | .expr value =>
    rw [Stmt.points] at mem
    rw [Stmt.callees]
    exact Expr.mem_callees_of_effect mem
  | .declare decl =>
    rw [Stmt.points, VarDecl.points] at mem
    rw [Stmt.callees]
    split at mem
    · next declared =>
      rw [declared, List.flatMap_singleton]
      exact Expr.mem_callees _ mem
    · contradiction
  | .branch cond yes no =>
    rw [Stmt.points, List.mem_append, List.mem_append] at mem
    rw [Stmt.callees, List.mem_append, List.mem_append]
    exact mem.imp (Expr.mem_callees cond) (Or.imp (mem_callees yes) (mem_alternativeCallees no))
  | .loop cond body =>
    rw [Stmt.points, List.mem_append] at mem
    rw [Stmt.callees, List.mem_append]
    exact mem.imp (Expr.mem_callees cond) (mem_callees body)
  | .ret none =>
    rw [Stmt.points, Expr.resultPoints] at mem
    contradiction
  | .ret (some value) =>
    rw [Stmt.points, Expr.resultPoints] at mem
    rw [Stmt.callees, Option.elim]
    exact Expr.mem_callees value mem

/-- The calls in the code of statements are calls in the statements. -/
theorem Stmt.mem_calleesOfAll (ss : List Stmt) {next : Nat} (mem : p ∈ Stmt.pointsOfAll window next ss) :
    (p.name, p.excess) ∈ Stmt.calleesOfAll ss := by
  match ss with
  | [] =>
    rw [Stmt.pointsOfAll] at mem
    contradiction
  | s :: rest =>
    rw [Stmt.pointsOfAll, List.mem_append] at mem
    rw [Stmt.calleesOfAll, List.mem_append]
    exact mem.imp (mem_callees s) (mem_calleesOfAll rest)

/-- The calls in the code of the second arm of a branch are calls in that arm. -/
theorem Stmt.mem_alternativeCallees (no : Option Stmt) {next : Nat}
    (mem : p ∈ Stmt.alternativePoints window next no) :
    (p.name, p.excess) ∈ Stmt.alternativeCallees no := by
  match no with
  | none =>
    rw [Stmt.alternativePoints] at mem
    contradiction
  | some s =>
    rw [Stmt.alternativePoints] at mem
    rw [Stmt.alternativeCallees]
    exact mem_callees s mem

end

end Callees

namespace CallPoint

/-- The labels of calls come one behind the other, from a number of labels. -/
structure Ordered (next count : Nat) (points : List CallPoint) : Prop where
  pairwise : points.Pairwise fun p q => p.resume.id < q.resume.id
  range : ∀ p ∈ points, next ≤ p.resume.id ∧ p.resume.id < next + count

namespace Ordered

variable {next next' count count' : Nat} {p q : CallPoint} {front back : List CallPoint}

/-- No calls. -/
theorem nil : Ordered next count [] :=
  ⟨.nil, List.forall_mem_nil _⟩

/-- Calls whose labels are some of more labels. -/
theorem within (h : Ordered next' count' front) (first : next ≤ next')
    (last : next' + count' ≤ next + count) : Ordered next count front := by
  refine ⟨h.pairwise, fun p mem => ?_⟩
  have range := h.range p mem
  omega

/-- Calls behind other calls. -/
theorem append (h : Ordered next count front) (h' : Ordered (next + count) count' back) :
    Ordered next (count + count') (front ++ back) := by
  constructor
  · refine List.pairwise_append.2 ⟨h.pairwise, h'.pairwise, fun p mem q mem' => ?_⟩
    have before := h.range p mem
    have behind := h'.range q mem'
    omega
  · rintro p mem
    rcases List.mem_append.1 mem with mem | mem
    · have range := h.range p mem
      omega
    · have range := h'.range p mem
      omega

/-- A call takes its label in front of those of the calls in its arguments. -/
theorem cons (label : p.resume = ⟨next⟩) (h : Ordered (next + 1) count front) :
    Ordered next (1 + count) (p :: front) := by
  have single : Ordered next 1 [p] := by
    refine ⟨List.pairwise_singleton _ _, List.forall_mem_singleton.2 ?_⟩
    rw [label]
    dsimp only
    omega
  exact single.append h

/-- Calls with one label are one call. -/
theorem eq_of_resume (h : Ordered next count front) (mem : p ∈ front) (mem' : q ∈ front)
    (same : p.resume = q.resume) : p = q := by
  refine List.inj_on_of_nodup_map (f := CallPoint.resume) ?_ mem mem' same
  refine List.pairwise_map.2 (h.pairwise.imp fun {p q} before same => ?_)
  rw [same] at before
  exact Nat.lt_irrefl _ before

end Ordered

end CallPoint

section Ordered

open CallPoint (Ordered)

variable {window : Nat}

mutual

/-- The calls in the code of an expression come in the order of their labels. -/
theorem Expr.ordered_points (e : Expr) (words excess next : Nat) :
    Ordered next e.labels (e.points window words excess next) := by
  match e with
  | .int _ | .var _ | .assign _ _ _ =>
    rw [Expr.points]
    exact .nil
  | .paren inner =>
    rw [Expr.points, Expr.labels]
    exact ordered_points inner words excess next
  | .unary _ operand =>
    rw [Expr.points, Expr.labels]
    exact ordered_points operand words excess next
  | .binary op lhs rhs =>
    rw [Expr.points, Expr.labels]
    rcases op.forms with rfl | rfl | ⟨conjunction, disjunction⟩
    · -- Both operands come behind the two labels of the operator.
      rw [if_pos rfl, if_pos (.inl rfl)]
      refine ((ordered_points lhs words excess (next + 2)).append
        (ordered_points rhs words excess _)).within ?_ ?_ <;> omega
    · rw [if_neg (by decide : BinaryOp.or ≠ .and), if_pos rfl, if_pos (.inr rfl)]
      refine ((ordered_points lhs words excess (next + 2)).append
        (ordered_points rhs words (excess + 1) _)).within ?_ ?_ <;> omega
    · rw [if_neg conjunction, if_neg disjunction, if_neg (not_or.2 ⟨conjunction, disjunction⟩), Nat.zero_add]
      exact (ordered_points lhs words excess next).append (ordered_points rhs (words + 1) excess _)
  | .call name args _ _ =>
    rw [Expr.points, Expr.labels]
    split
    · rw [Nat.zero_add]
      exact ordered_pointsOfAll args words excess next
    · exact .cons rfl (ordered_pointsOfAll args (words + window) excess (next + 1))

/-- The calls in the code of expressions come in the order of their labels. -/
theorem Expr.ordered_pointsOfAll (es : List Expr) (words excess next : Nat) :
    Ordered next (Expr.labelsOfAll es) (Expr.pointsOfAll window words excess next es) := by
  match es with
  | [] =>
    rw [Expr.pointsOfAll]
    exact .nil
  | e :: es =>
    rw [Expr.pointsOfAll, Expr.labelsOfAll]
    exact (ordered_points e words excess next).append (ordered_pointsOfAll es (words + 1) excess _)

end

/-- The calls in the code of an expression that is a statement come in the order of their labels. -/
theorem Expr.ordered_effectPoints (e : Expr) (next : Nat) :
    Ordered next e.effectLabels (e.effectPoints window next) := by
  cases e with
  | int | var | paren | unary | binary => exact .nil
  | assign op target value => exact Expr.ordered_points value 0 0 next
  | call name args receiver typeArgs =>
    unfold Expr.effectPoints Expr.effectLabels
    dsimp only
    split
    · rw [Nat.zero_add]
      exact Expr.ordered_pointsOfAll args 0 0 next
    · exact .cons rfl (Expr.ordered_pointsOfAll args (0 + window) 0 (next + 1))

mutual

/-- The calls in the code of a statement come in the order of their labels. -/
theorem Stmt.ordered_points (s : Stmt) (next : Nat) : Ordered next s.labels (s.points window next) := by
  match s with
  | .block body =>
    rw [Stmt.points, Stmt.labels]
    exact ordered_pointsOfAll body next
  | .expr value =>
    rw [Stmt.points, Stmt.labels]
    exact Expr.ordered_effectPoints value next
  | .declare decl =>
    rw [Stmt.points, Stmt.labels]
    unfold VarDecl.points
    split
    · next declared =>
      unfold VarDecl.labels
      rw [declared]
      exact Expr.ordered_points _ 0 0 next
    · exact .nil
  | .branch cond yes no =>
    rw [Stmt.points, Stmt.labels]
    refine ((Expr.ordered_points cond 0 0 (next + 1)).append
      ((ordered_points yes _).append (ordered_alternativePoints no _))).within ?_ ?_ <;> omega
  | .loop cond body =>
    rw [Stmt.points, Stmt.labels]
    refine ((Expr.ordered_points cond 0 0 (next + 2)).append (ordered_points body _)).within ?_ ?_ <;> omega
  | .ret none =>
    rw [Stmt.points]
    exact .nil
  | .ret (some value) =>
    rw [Stmt.points, Stmt.labels]
    exact Expr.ordered_points value 0 0 next

/-- The calls in the code of statements come in the order of their labels. -/
theorem Stmt.ordered_pointsOfAll (ss : List Stmt) (next : Nat) :
    Ordered next (Stmt.labelsOfAll ss) (Stmt.pointsOfAll window next ss) := by
  match ss with
  | [] =>
    rw [Stmt.pointsOfAll]
    exact .nil
  | s :: rest =>
    rw [Stmt.pointsOfAll, Stmt.labelsOfAll]
    exact (ordered_points s next).append (ordered_pointsOfAll rest _)

/-- The calls in the code of the second arm of a branch come in the order of their labels. -/
theorem Stmt.ordered_alternativePoints (no : Option Stmt) (next : Nat) :
    Ordered next (Stmt.alternativeLabels no) (Stmt.alternativePoints window next no) := by
  match no with
  | none =>
    rw [Stmt.alternativePoints]
    exact .nil
  | some s =>
    rw [Stmt.alternativePoints, Stmt.alternativeLabels]
    refine (ordered_points s (next + 1)).within ?_ ?_ <;> omega

end

end Ordered

namespace Code

/-- Somewhere in the code is a label with a jump to a word from the stack in front of it, as in the code of a
call, where the callee comes back to. -/
def Returns (label : Label) (code : List Instr) : Prop :=
  ∃ front back, code = front ++ (.imm .pop Register.pc :: .marker label :: back)

variable {label : Label} {front back block : List Instr}

/-- A call in the first part of code. -/
theorem Returns.left (h : Returns label front) : Returns label (front ++ back) := by
  obtain ⟨before, behind, rfl⟩ := h
  exact ⟨before, behind ++ back, by simp⟩

/-- A call in the second part of code. -/
theorem Returns.right (h : Returns label back) : Returns label (front ++ back) := by
  obtain ⟨before, behind, rfl⟩ := h
  exact ⟨front ++ before, behind, by simp⟩

/-- The end of a call. -/
theorem returns_enter {offset : Int} {entry : Label} :
    Returns label (enter offset entry ++ ([.marker label] ++ back)) :=
  ⟨[.imm .push Register.base, .imm .const (Int32.ofInt offset), .plain .add, .imm .pop Register.base,
    .constant (.label entry)], back, rfl⟩

end Code

section Returns

open Code (Returns)

variable {site : Site} {window words excess next : Nat} {depth : Int} {block : List Instr} {p : CallPoint}

mutual

/-- The calls of an expression are in its code. -/
theorem ExprCode.returns (e : Expr) {words excess next : Nat} {depth : Int} {block : List Instr}
    (code : ExprCode site depth next e block) (mem : p ∈ e.points window words excess next) :
    Returns p.resume block := by
  match e, code with
  | .int _, .int _ | .var _, .var _ =>
    rw [Expr.points] at mem
    contradiction
  | .paren inner, .paren code =>
    rw [Expr.points] at mem
    exact ExprCode.returns inner code mem
  | .unary _ operand, .unary code =>
    rw [Expr.points] at mem
    exact (ExprCode.returns operand code mem).left
  | .binary op lhs rhs, .binary known left right =>
    have strict : op ≠ .and ∧ op ≠ .or := by
      constructor <;> rintro rfl <;> contradiction
    rw [Expr.points, if_neg strict.1, if_neg strict.2, List.mem_append] at mem
    rcases mem with first | second
    · exact (ExprCode.returns lhs left first).left
    · exact (ExprCode.returns rhs right second).left.right
  | .binary .and lhs rhs, .and left right =>
    rw [Expr.points, if_pos rfl, List.mem_append] at mem
    rcases mem with first | second
    · exact (ExprCode.returns lhs left first).left
    · exact (ExprCode.returns rhs right second).left.right.right
  | .binary .or lhs rhs, .or left right =>
    rw [Expr.points, if_neg (by decide), if_pos rfl, List.mem_append] at mem
    rcases mem with first | second
    · exact (ExprCode.returns lhs left first).left
    · exact (ExprCode.returns rhs right second).left.right.right.right.right.right
  | .call _ args _ _, .input two values =>
    rw [Expr.points, if_pos rfl] at mem
    exact (ExprsCode.returns args values mem).left
  | .call name args _ _, .call user found value code =>
    rw [Expr.points, if_neg user] at mem
    obtain ⟨-, values⟩ := code
    rcases List.mem_cons.1 mem with rfl | inner
    · exact Code.returns_enter.right.right.left
    · exact (ExprsCode.returns args values inner).left.right.left

/-- The calls of expressions are in their code. -/
theorem ExprsCode.returns (es : List Expr) {words excess next : Nat} {depth : Int} {block : List Instr}
    (code : ExprsCode site depth next es block) (mem : p ∈ Expr.pointsOfAll window words excess next es) :
    Returns p.resume block := by
  match es, code with
  | [], .nil =>
    rw [Expr.pointsOfAll] at mem
    contradiction
  | e :: es, .cons head tail =>
    rw [Expr.pointsOfAll, List.mem_append] at mem
    rcases mem with first | others
    · exact (ExprCode.returns e head first).left
    · exact (ExprsCode.returns es tail others).right

end

/-- The calls of an expression whose value is held by a register are in its code. -/
theorem HeldCode.returns {e : Expr} {source : Int32} (held : HeldCode site depth next e block source)
    (mem : p ∈ e.points window words excess next) : Returns p.resume block := by
  induction held with
  | var _ =>
    rw [Expr.points] at mem
    contradiction
  | paren _ ih =>
    rw [Expr.points] at mem
    exact ih mem
  | input _ values =>
    rw [Expr.points, if_pos rfl] at mem
    exact (values.returns _ mem).left
  | call user _ code =>
    rw [Expr.points, if_neg user] at mem
    obtain ⟨-, values⟩ := code
    rcases List.mem_cons.1 mem with rfl | inner
    · exact Code.returns_enter.right.right
    · exact (values.returns _ inner).left.right

/-- The calls of an expression whose value is moved into a register are in the code. -/
theorem StoreCode.returns {e : Expr} {dest : Int32} (code : StoreCode site depth next e dest block)
    (mem : p ∈ e.points window words excess next) : Returns p.resume block := by
  rcases code.popped_or_moved with ⟨popped, rfl, value⟩ | ⟨init, source, rfl, held⟩
  · exact (value.returns e mem).left
  · exact (held.returns mem).left

/-- The calls of an expression that is a statement are in its code. -/
theorem EffectCode.returns {e : Expr} (code : EffectCode site depth next e block)
    (mem : p ∈ e.effectPoints window next) : Returns p.resume block := by
  cases code with
  | assign _ store => exact store.returns mem
  | output abscissa ordinate store =>
    unfold Expr.effectPoints at mem
    dsimp only at mem
    simp only [Expr.pointsOfAll, if_true, List.mem_append, List.append_nil] at mem
    rcases mem with in_x | in_y | in_value
    · exact (abscissa.returns _ in_x).left
    · exact (ordinate.returns _ in_y).left.right
    · exact (store.returns in_value).left.right.right
  | call user _ code =>
    unfold Expr.effectPoints at mem
    dsimp only at mem
    rw [if_neg user] at mem
    obtain ⟨-, values⟩ := code
    rcases List.mem_cons.1 mem with rfl | inner
    · exact Code.returns_enter.right.right
    · exact (values.returns _ inner).left.right

mutual

/-- The calls of a statement are in its code. -/
theorem StmtCode.returns (s : Stmt) {next : Nat} {depth : Int} {block : List Instr}
    (code : StmtCode site depth next s block) (mem : p ∈ s.points window next) :
    Returns p.resume block := by
  match s, code with
  | .block body, .block code =>
    rw [Stmt.points] at mem
    exact StmtsCode.returns body code mem
  | .expr _, .expr code =>
    rw [Stmt.points] at mem
    exact code.returns mem
  | .declare _, .declare _ store =>
    rw [Stmt.points] at mem
    exact store.returns mem
  | .branch cond yes no, .branch test arm other =>
    rw [Stmt.points, List.mem_append, List.mem_append] at mem
    rcases mem with in_cond | in_yes | in_no
    · exact (test.returns cond in_cond).left
    · exact (StmtCode.returns yes arm in_yes).left.right.right
    · exact (AlternativeCode.returns no other in_no).right.right.right
  | .loop cond body, .loop test round =>
    rw [Stmt.points, List.mem_append] at mem
    rcases mem with in_cond | in_body
    · exact (test.returns cond in_cond).left.right
    · exact (StmtCode.returns body round in_body).left.right.right.right
  | .ret none, .leave =>
    rw [Stmt.points] at mem
    contradiction
  | .ret (some _), .ret store =>
    rw [Stmt.points] at mem
    exact (store.returns mem).left

/-- The calls of statements are in their code. -/
theorem StmtsCode.returns (ss : List Stmt) {next : Nat} {depth : Int} {block : List Instr}
    (code : StmtsCode site depth next ss block) (mem : p ∈ Stmt.pointsOfAll window next ss) :
    Returns p.resume block := by
  match ss, code with
  | [], .nil =>
    rw [Stmt.pointsOfAll] at mem
    contradiction
  | s :: rest, .cons head tail =>
    rw [Stmt.pointsOfAll, List.mem_append] at mem
    rcases mem with first | others
    · exact (StmtCode.returns s head first).left
    · exact (StmtsCode.returns rest tail others).right

/-- The calls of the second arm of a branch are in its code. -/
theorem AlternativeCode.returns (no : Option Stmt) {next : Nat} {depth : Int} {otherwise : Label}
    {block : List Instr} (code : AlternativeCode site depth next otherwise no block)
    (mem : p ∈ Stmt.alternativePoints window next no) : Returns p.resume block := by
  match no, code with
  | none, .none =>
    rw [Stmt.alternativePoints] at mem
    contradiction
  | some s, .some arm =>
    rw [Stmt.alternativePoints] at mem
    exact (StmtCode.returns s arm mem).left.right.right

end

/-- The calls of a function are in its code. -/
theorem FunctionCode.returns {entry : Label} (code : FunctionCode site next entry block)
    (mem : p ∈ Stmt.pointsOfAll window next site.function.body) : Returns p.resume block := by
  obtain ⟨body⟩ := code
  exact (body.returns _ mem).left.right.right

end Returns

end GridStack
