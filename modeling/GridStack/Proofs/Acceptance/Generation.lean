import GridStack.Proofs.Acceptance.Checking
import GridStack.Proofs.Draft.Afloat
import GridStack.Proofs.Draft.Calls

/-!
# What generation decides

Generation looks up names, and nothing else in it can fail for a tree that is formed as it should be: the
words that its instructions take off the stack are there, whatever the tree (`Afloat`), and constructs that
no check lets through are the only ones it refuses. `Lands` is this of any part of generation, for trees
that are formed and for trees that are not; the main results are `expr_lands`, `stmt_lands` and
`front_lands`, with one case for each form. Parts that look up nothing are `Certain`, and are put in
front of a part that can fail (`Lands.after`) or behind it (`Lands.before`).

The count stays below any limit that leaves room for the peak of the tree. The end of a function is apart
from this (`function_ends`): it takes words of the caller's frame, which are not counted.
-/

namespace GridStack

/-- What names mean in a function that passed the check, among the functions of a table. -/
def CheckedFunction.scope (f : CheckedFunction) (table : FunctionTable) : Scope where
  Variable name := name ∈ f.vars
  Function name arity asValue := ∃ callee, table.find? name = some callee ∧
    callee.params = arity ∧ (asValue = true → callee.returnsValue = true)

/-- What names mean where code is generated. -/
def Site.scope (site : Site) : Scope :=
  site.function.scope site.table

namespace Emit

/-- Generation in a function succeeds only with names that have a meaning, and then there are so many words
on the stack. It fails only for a name without a meaning or a tree that is not formed as it should be, and
blames the function unless the tree is to blame. -/
def Ends {α : Type} (function : String) (words : Int) (formed bound : Prop)
    (x : Except CompileError (α × Draft)) : Prop :=
  match x with
  | .ok (_, after) => after.depth = words ∧ bound
  | .error e => ¬ (formed ∧ bound) ∧
      (e.Blames function ∨ ¬ formed ∧ ∃ construct, e = .unchecked function construct)

/-- Generation from a draft that is afloat, and ends in one of the ways that it can. -/
structure Lands {α : Type} (function : String) (top words : Int) (formed bound : Prop) (x : Emit α)
    (d : Draft) : Prop where
  afloat : Afloat top x d
  ends : Ends function words formed bound (x d)

section Rules

variable {α β : Type} {function : String} {top words words' : Int} {formed formed' bound bound' : Prop}
  {x : Emit α} {f : α → Emit β} {draft : Draft}

/-- The count of words at the end, if there is one. -/
theorem Lands.depth_eq (h : Lands function top words formed bound x draft) {a : α} {after : Draft}
    (ok : x draft = .ok (a, after)) : after.depth = words := by
  have ends := h.ends
  rw [ok] at ends
  exact ends.1

/-- What cannot fail settles whatever holds. -/
theorem Certain.settles (h : Certain top words x draft) (holds : bound) :
    Lands function top words formed bound x draft where
  afloat := h.afloat
  ends := by
    obtain ⟨a, after, eq, depth⟩ := h.succeeds
    rw [eq]
    exact ⟨depth, holds⟩

/-- More is asked of the tree, and the same of the names. -/
theorem Lands.congr (h : Lands function top words formed bound x draft)
    (same : words = words') (imp : formed' → formed) (iff : bound ↔ bound') :
    Lands function top words' formed' bound' x draft := by
  obtain ⟨afloat, ends⟩ := h
  refine ⟨afloat, ?_⟩
  rw [← same, ← propext iff]
  revert ends
  cases x draft with
  | ok r => exact id
  | error e =>
    exact fun ⟨refused, fault⟩ => ⟨fun both => refused ⟨imp both.1, both.2⟩,
      fault.imp_right fun ⟨malformed, unchecked⟩ => ⟨fun formed => malformed (imp formed), unchecked⟩⟩

/-- One part behind another, which may use that the first one succeeded. -/
theorem Ends.bind (h : Ends function words formed bound (x draft))
    (next : ∀ a after, x draft = .ok (a, after) → after.depth = words →
      Ends function words' formed' bound' (f a after)) :
    Ends function words' (formed ∧ formed') (bound ∧ bound') ((x >>= f) draft) := by
  change Ends function words' _ _ (Except.bind (x draft) fun r => f r.1 r.2)
  unfold Ends at h
  cases eq : x draft with
  | error e =>
    rw [eq] at h
    obtain ⟨refused, fault⟩ := h
    exact ⟨fun both => refused ⟨both.1.1, both.2.1⟩,
      fault.imp_right fun ⟨malformed, unchecked⟩ => ⟨fun both => malformed both.1, unchecked⟩⟩
  | ok r =>
    rw [eq] at h
    obtain ⟨depth, bound⟩ := h
    have second := next r.1 r.2 eq depth
    change Ends function words' _ _ (f r.1 r.2)
    unfold Ends at second ⊢
    cases eq' : f r.1 r.2 with
    | error e =>
      rw [eq'] at second
      obtain ⟨refused, fault⟩ := second
      exact ⟨fun both => refused ⟨both.1.2, both.2.2⟩,
        fault.imp_right fun ⟨malformed, unchecked⟩ => ⟨fun both => malformed both.2, unchecked⟩⟩
    | ok r' =>
      rw [eq'] at second
      exact ⟨second.1, bound, second.2⟩

/-- Parts that land one behind the other. -/
theorem Lands.bind (h : Lands function top words formed bound x draft)
    (next : ∀ a after, x draft = .ok (a, after) → after.depth = words →
      Lands function top words' formed' bound' (f a) after) :
    Lands function top words' (formed ∧ formed') (bound ∧ bound') (x >>= f) draft where
  afloat := .bind h.afloat fun a after ok => (next a after ok (h.depth_eq ok)).afloat
  ends := h.ends.bind fun a after ok depth => (next a after ok depth).ends

/-- A part behind one that cannot fail. -/
theorem Lands.after (h : Certain top words x draft)
    (next : ∀ a after, x draft = .ok (a, after) → after.depth = words →
      Lands function top words' formed bound (f a) after) :
    Lands function top words' formed bound (x >>= f) draft :=
  ((h.settles trivial).bind next).congr rfl (fun h => ⟨trivial, h⟩) (iff_of_eq (true_and _))

/-- A part that cannot fail behind another one. -/
theorem Lands.before (h : Lands function top words formed bound x draft)
    (next : ∀ a after, after.depth = words → Certain top words' (f a) after) :
    Lands function top words' formed bound (x >>= f) draft := by
  have both : Lands function top words' (formed ∧ True) (bound ∧ True) (x >>= f) draft :=
    h.bind fun a after _ depth => (next a after depth).settles trivial
  exact both.congr rfl (fun h => ⟨h, trivial⟩) (iff_of_eq (and_true _))

/-- Of a tree that is formed as it should be, generation settles whether the names have a meaning. -/
theorem Ends.settles {x : Except CompileError (α × Draft)} (h : Ends function words formed bound x)
    (sound : formed) : Check.Settles (CompileError.Blames function) x bound := by
  cases x with
  | ok r => exact h.2
  | error e =>
    obtain ⟨refused, fault⟩ := h
    exact ⟨fun bound => refused ⟨sound, bound⟩, fault.resolve_right fun malformed => malformed.1 sound⟩

/-- A fault of the function that is found. -/
theorem Lands.refuse {e : CompileError} (unbound : ¬ bound) (blames : e.Blames function) :
    Lands function top words formed bound (fail e : Emit α) draft :=
  ⟨.fail e, fun both => unbound both.2, .inl blames⟩

end Rules

section Pieces

variable {site : Site} {top : Int} {draft : Draft}

/-- A construct that no check lets through. -/
theorem refuse_lands {α : Type} {words : Int} {formed bound : Prop} {construct : Construct}
    (malformed : ¬ formed) :
    Lands site.function.name top words formed bound (refuse site construct : Emit α) draft :=
  ⟨.fail _, fun both => malformed both.1, .inr ⟨malformed, construct, rfl⟩⟩

/-- An operator between two operands finds them, if the machine has code for it. -/
theorem binary_lands {op : BinaryOp} (conjunction : op ≠ .and) (disjunction : op ≠ .or)
    {construct : Expr} (low : 2 ≤ draft.depth) (high : draft.depth - 2 + op.peak ≤ top) :
    Lands site.function.name top (draft.depth - 1) (op ≠ .div ∧ op ≠ .rem ∧ op ≠ .ushr) True
      (binary site construct op) draft := by
  -- An operator without code is refused, and nothing is emitted for it.
  by_cases known : op ≠ .div ∧ op ≠ .rem ∧ op ≠ .ushr
  · exact (binary_certain conjunction disjunction known low high).settles trivial
  · have refused : binary site construct op = refuse site (.expr construct) := by
      cases op
      case and | or | div | rem | ushr => rfl
      all_goals exact absurd (by decide) known
    rw [refused]
    exact refuse_lands known

/-- A variable is found when it is one. -/
theorem register_lands (name : String) :
    Lands site.function.name top draft.depth True (site.scope.Variable name) (register site name) draft := by
  unfold register CheckedFunction.variableIndex?
  cases found : site.function.vars.idxOf? name with
  | none => exact .refuse (List.idxOf?_eq_none_iff.1 found) rfl
  | some index => exact ⟨.pure _, rfl, List.isSome_idxOf?.1 (by rw [found]; rfl)⟩

/-- A function is found when there is one that the call fits. -/
theorem callee_lands (call : Call) (asValue : Bool) :
    Lands site.function.name top draft.depth True (site.scope.Function call.name call.args.length asValue)
      (callee site call asValue) draft := by
  unfold callee Site.scope CheckedFunction.scope
  cases found : site.table.find? call.name with
  | none =>
    refine .refuse ?_ rfl
    rintro ⟨f, found', -⟩
    rw [found] at found'
    contradiction
  | some f =>
    have fits : ∀ {g : Callee}, site.table.find? call.name = some g → g = f := fun found' =>
      Option.some.inj (found'.symm.trans found)
    dsimp only
    split
    · -- The value of a function that has none is used.
      next void =>
      refine .refuse ?_ rfl
      rintro ⟨g, found', -, value⟩
      rw [fits found'] at value
      exact void.2 (value void.1)
    · next value =>
      split
      · -- There are too few or too many arguments.
        next arity =>
        refine .refuse ?_ rfl
        rintro ⟨g, found', arity', -⟩
        rw [fits found'] at arity'
        exact arity arity'.symm
      · next arity =>
        refine ⟨.pure f, rfl, f, found, (Decidable.not_not.1 arity).symm, fun asked => ?_⟩
        exact Decidable.not_not.1 fun void => value ⟨asked, void⟩

end Pieces

section Trees

variable {site : Site} {top : Int}

/-- How the code of an expression ends, under a limit that leaves room for it. -/
abbrev LandsExpr (site : Site) (top : Int) (e : Expr) : Prop :=
  ∀ draft : Draft, 0 ≤ draft.depth → draft.depth + e.peak site.function.vars.length ≤ top →
    Lands site.function.name top (draft.depth + 1)
      (∀ p ∈ e.parts, p.Formed) (∀ p ∈ e.parts, p.Bound site.scope) (expr site e) draft

/-- How the code of expressions ends, under a limit that leaves room for it. -/
abbrev LandsExprs (site : Site) (top : Int) (es : List Expr) : Prop :=
  ∀ draft : Draft, 0 ≤ draft.depth → draft.depth + Expr.peakOfAll site.function.vars.length es ≤ top →
    Lands site.function.name top (draft.depth + es.length)
      (∀ p ∈ Expr.partsOfAll es, p.Formed) (∀ p ∈ Expr.partsOfAll es, p.Bound site.scope)
      (exprs site es) draft

/-- A call leaves the stack as it was, given how its arguments end. -/
theorem call_lands (called : Call) (asValue : Bool) (values : LandsExprs site top called.args)
    {draft : Draft} (low : 0 ≤ draft.depth)
    (high : draft.depth + (site.function.vars.length + frameWords +
      max (Expr.peakOfAll site.function.vars.length called.args) (called.args.length + 2) : Nat) ≤ top) :
    Lands site.function.name top draft.depth (∀ p ∈ Expr.partsOfAll called.args, p.Formed)
      (site.scope.Function called.name called.args.length asValue ∧
        ∀ p ∈ Expr.partsOfAll called.args, p.Bound site.scope)
      (call site called asValue) draft := by
  have words : frameWords = 2 := rfl
  refine ((callee_lands called asValue).bind fun f _ found _ => ?_).congr rfl
    (fun h => ⟨trivial, h⟩) Iff.rfl
  obtain ⟨-, -, -, arity⟩ := callee_ok found
  refine Lands.after (callBegin_certain (by omega) (by omega)) fun (resume, offset) before _ _ => ?_
  exact (values before (by omega) (by omega)).before fun _ _ _ =>
    (callEnd_certain (by omega) (by omega)).to (by omega)

/-- What two operands have to be like. -/
theorem forall_parts_binary {P : Expr → Prop} {op : BinaryOp} {lhs rhs : Expr} :
    (∀ p ∈ (Expr.binary op lhs rhs).parts, P p) ↔
      P (.binary op lhs rhs) ∧ (∀ p ∈ lhs.parts, P p) ∧ ∀ p ∈ rhs.parts, P p := by
  rw [Expr.parts, List.forall_mem_cons, List.forall_mem_append]

/-- An operation has no name of its own, so that its operands say what has to have a meaning. -/
theorem Lands.of_operands {op : BinaryOp} {lhs rhs : Expr} {function : String} {words : Int} {x : Emit Unit}
    {draft : Draft} (h : Lands function top words
      ((∀ p ∈ lhs.parts, p.Formed) ∧ ∀ p ∈ rhs.parts, p.Formed)
      ((∀ p ∈ lhs.parts, p.Bound site.scope) ∧ ∀ p ∈ rhs.parts, p.Bound site.scope) x draft) :
    Lands function top words (∀ p ∈ (Expr.binary op lhs rhs).parts, p.Formed)
      (∀ p ∈ (Expr.binary op lhs rhs).parts, p.Bound site.scope) x draft := by
  refine h.congr rfl ?_ ?_
  · rw [forall_parts_binary]
    exact And.right
  · rw [forall_parts_binary]
    exact (and_iff_right trivial).symm

/-- One of the two arms of a conjunction is counted twice and taken off again. -/
theorem LandsExpr.and {lhs rhs : Expr} (left : LandsExpr site top lhs) (right : LandsExpr site top rhs) :
    LandsExpr site top (.binary .and lhs rhs) := by
  intro draft low high
  rw [Expr.peak, if_pos rfl, BinaryOp.peak] at high
  refine Lands.of_operands ?_
  rw [expr]
  refine Lands.after fresh_certain fun _ _ _ _ => Lands.after fresh_certain fun _ _ _ _ => ?_
  refine (left _ (by omega) (by omega)).bind fun _ _ _ _ => ?_
  refine Lands.after (jumpIfZero_certain (by omega) (by omega)) fun _ _ _ _ => ?_
  refine (right _ (by omega) (by omega)).before fun _ _ _ => ?_
  -- The jump over the other arm, and the other arm, whose word is the second one.
  refine (jump_certain (by omega) (by omega)).bind fun _ _ _ => ?_
  refine (mark_certain (by omega) (by omega)).bind fun _ _ _ => ?_
  refine (instr_certain 1 rfl (by omega) (by omega)).bind fun _ _ _ => ?_
  refine (mark_certain (by omega) (by omega)).bind fun _ _ _ => ?_
  exact (adjust_certain (by decide) (by omega) (by omega)).to (by omega)

/-- One of the two arms of a disjunction is counted twice and taken off again. -/
theorem LandsExpr.or {lhs rhs : Expr} (left : LandsExpr site top lhs) (right : LandsExpr site top rhs) :
    LandsExpr site top (.binary .or lhs rhs) := by
  intro draft low high
  rw [Expr.peak, if_neg (by decide), BinaryOp.peak] at high
  refine Lands.of_operands ?_
  rw [expr]
  refine Lands.after fresh_certain fun _ _ _ _ => Lands.after fresh_certain fun _ _ _ _ => ?_
  refine (left _ (by omega) (by omega)).bind fun _ _ _ _ => ?_
  refine Lands.after (jumpIfZero_certain (by omega) (by omega)) fun _ _ _ _ => ?_
  -- The first arm, whose word is still counted in the right operand.
  refine Lands.after (instr_certain 1 rfl (by omega) (by omega)) fun _ _ _ _ => ?_
  refine Lands.after (jump_certain (by omega) (by omega)) fun _ _ _ _ => ?_
  refine Lands.after (mark_certain (by omega) (by omega)) fun _ _ _ _ => ?_
  refine (right _ (by omega) (by omega)).before fun _ _ _ => ?_
  refine (mark_certain (by omega) (by omega)).bind fun _ _ _ => ?_
  exact (adjust_certain (by decide) (by omega) (by omega)).to (by omega)

/-- The operands of any other operator are on the stack when it comes. -/
theorem LandsExpr.binary {op : BinaryOp} (conjunction : op ≠ .and) (disjunction : op ≠ .or) {lhs rhs : Expr}
    (left : LandsExpr site top lhs) (right : LandsExpr site top rhs) :
    LandsExpr site top (.binary op lhs rhs) := by
  intro draft low high
  rw [Expr.peak, if_neg conjunction] at high
  have operator : ∀ last : Draft, last.depth = draft.depth + 1 + 1 →
      Lands site.function.name top (draft.depth + 1) (Expr.binary op lhs rhs).Formed
        (Expr.Bound site.scope (.binary op lhs rhs)) (Emit.binary site (.binary op lhs rhs) op) last :=
    fun last depth =>
      (binary_lands conjunction disjunction (by omega) (by omega)).congr (by omega) id Iff.rfl
  rw [expr_binary conjunction disjunction]
  refine ((left _ low (by omega)).bind fun _ _ _ _ => (right _ (by omega) (by omega)).bind
    fun _ last _ _ => operator last (by omega)).congr rfl ?_ ?_
  · rw [forall_parts_binary]
    exact fun ⟨formed, left, right⟩ => ⟨left, right, formed⟩
  · rw [forall_parts_binary]
    exact and_assoc.symm.trans and_comm

mutual

/-- Code is generated for an expression when it is formed as it should be and its names have a meaning. -/
theorem expr_lands (e : Expr) : LandsExpr site top e := by
  match e with
  | .int n =>
    intro draft low high
    rw [Expr.peak] at high
    rw [expr, Expr.parts, List.forall_mem_singleton, List.forall_mem_singleton, Expr.Formed,
      ← Check.literalWord?_isSome_iff]
    cases word : literalWord? n with
    | none => exact ⟨.fail _, fun both => (nomatch both.1), .inl rfl⟩
    | some word => exact (instr_certain 1 rfl (by omega) (by omega)).settles trivial
  | .var name =>
    intro draft low high
    rw [Expr.peak] at high
    rw [expr, Expr.parts, List.forall_mem_singleton, List.forall_mem_singleton]
    exact (register_lands name).before fun _ _ _ => (instr_certain 1 rfl (by omega) (by omega)).to (by omega)
  | .paren inner =>
    intro draft low high
    rw [Expr.peak] at high
    rw [expr, Expr.parts, List.forall_mem_cons, List.forall_mem_cons]
    exact (expr_lands inner draft low high).congr rfl And.right (and_iff_right trivial).symm
  | .unary op operand =>
    intro draft low high
    rw [Expr.peak] at high
    rw [expr, Expr.parts, List.forall_mem_cons, List.forall_mem_cons]
    refine ((expr_lands operand draft low (by omega)).before fun _ _ _ => ?_).congr rfl And.right
      (and_iff_right trivial).symm
    exact (unary_certain op (by omega) (by omega)).to (by omega)
  | .binary op lhs rhs =>
    rcases op.forms with rfl | rfl | ⟨conjunction, disjunction⟩
    · exact (expr_lands lhs).and (expr_lands rhs)
    · exact (expr_lands lhs).or (expr_lands rhs)
    · exact LandsExpr.binary conjunction disjunction (expr_lands lhs) (expr_lands rhs)
  | .assign op target value =>
    intro draft low high
    rw [expr, Expr.parts, List.forall_mem_singleton, List.forall_mem_singleton]
    exact refuse_lands id
  | .call name args receiver typeArgs =>
    intro draft low high
    rw [Expr.peak] at high
    rw [Expr.parts, List.forall_mem_cons, List.forall_mem_cons]
    by_cases input : name = inputName
    · rw [if_pos input] at high
      rw [expr, if_pos input]
      split
      · next arity => exact refuse_lands fun formed => arity (formed.1.2.2.2 input)
      · next arity =>
        have room := Expr.length_le_peakOfAll site.function.vars.length args
        refine ((exprs_land args draft low high).before fun _ _ _ => ?_).congr rfl And.right
          (and_iff_right (.inl input)).symm
        exact (instr_certain (-2) rfl (by omega) (by omega)).bind fun _ _ _ =>
          (instr_certain 1 rfl (by omega) (by omega)).to (by omega)
    · rw [if_neg input] at high
      by_cases output : name = outputName
      · rw [expr, if_neg input, if_pos output]
        exact refuse_lands fun formed => formed.1.2.2.1 output
      · rw [expr_call input output]
        refine ((call_lands ⟨name, args, receiver, typeArgs⟩ true (exprs_land args) low high).before
          fun _ _ _ => ?_).congr rfl And.right (and_congr_left' (or_iff_right input).symm)
        exact (instr_certain 1 rfl (by omega) (by omega)).to (by omega)

/-- Code is generated for expressions from left to right. -/
theorem exprs_land (es : List Expr) : LandsExprs site top es := by
  match es with
  | [] =>
    intro draft low high
    rw [exprs, Expr.partsOfAll]
    exact ((pure_certain ()).to (Int.add_zero _).symm).settles (List.forall_mem_nil _)
  | e :: es =>
    intro draft low high
    rw [Expr.peakOfAll] at high
    rw [exprs, Expr.partsOfAll, List.forall_mem_append, List.forall_mem_append, List.length_cons]
    exact (expr_lands e draft low (by omega)).bind fun _ _ _ _ =>
      (exprs_land es _ (by omega) (by omega)).congr (by omega) id Iff.rfl

end

/-- The value of an assignment goes into the register of a variable. -/
theorem assignment_lands (name : String) (value : Expr) {draft : Draft} (low : 0 ≤ draft.depth)
    (high : draft.depth + value.peak site.function.vars.length ≤ top) :
    Lands site.function.name top draft.depth (∀ p ∈ value.parts, p.Formed)
      (site.scope.Variable name ∧ ∀ p ∈ value.parts, p.Bound site.scope)
      (assignment site name value) draft :=
  ((register_lands name).bind fun _ _ _ _ => (expr_lands value _ (by omega) (by omega)).before
    fun _ _ _ => (instr_certain (-1) rfl (by omega) (by omega)).to (by omega)).congr rfl
      (fun h => ⟨trivial, h⟩) Iff.rfl

variable {returnsValue : Bool}

/-- Code is generated for an expression that is a statement when it is one that can be a statement. -/
theorem effect_lands (e : Expr) {draft : Draft} (low : 0 ≤ draft.depth)
    (high : draft.depth + e.effectPeak site.function.vars.length ≤ top) :
    Lands site.function.name top draft.depth ((Stmt.expr e).Sound returnsValue)
      ((Stmt.expr e).Closed site.scope) (effect site e) draft := by
  unfold Stmt.Sound Stmt.Closed
  match e with
  | .assign op target value =>
    rw [Expr.effectPeak] at high
    rw [effect, Stmt.operands, Expr.partsOfAll, Expr.partsOfAll, List.append_nil]
    exact (assignment_lands target value low high).congr rfl And.right Iff.rfl
  | .call name args receiver typeArgs =>
    rw [Expr.effectPeak] at high
    rw [Stmt.operands]
    by_cases output : name = outputName
    · rw [if_pos output] at high
      rw [effect, if_pos output]
      split
      · next arity => exact refuse_lands fun formed => arity (formed.1.2.2.2 output)
      · next arity =>
        have room := Expr.length_le_peakOfAll site.function.vars.length args
        refine ((exprs_land args draft low high).before fun _ _ _ => ?_).congr rfl And.right
          (and_iff_right (.inl output)).symm
        exact (instr_certain (-1) rfl (by omega) (by omega)).bind fun _ _ _ =>
          (instr_certain (-2) rfl (by omega) (by omega)).to (by omega)
    · rw [if_neg output, Expr.peak] at high
      by_cases input : name = inputName
      · rw [effect, if_neg output, if_pos input]
        exact refuse_lands fun formed => formed.1.2.2.1 input
      · rw [if_neg input] at high
        rw [effect_call input output]
        exact (call_lands ⟨name, args, receiver, typeArgs⟩ false (exprs_land args) low high).congr rfl And.right
          (and_congr_left' (or_iff_right output).symm)
  | .int _ | .var _ | .paren _ | .unary _ _ | .binary _ _ _ =>
    exact refuse_lands fun sound => sound.1

/-- Code is generated for a declaration of one variable with an initial value. -/
theorem declaration_lands (decl : VarDecl) {draft : Draft} (low : 0 ≤ draft.depth)
    (high : draft.depth + decl.peak site.function.vars.length ≤ top) :
    Lands site.function.name top draft.depth ((Stmt.declare decl).Sound returnsValue)
      ((Stmt.declare decl).Closed site.scope) (declaration site decl) draft := by
  unfold Stmt.Sound Stmt.Closed
  rw [Stmt.operands, Stmt.Bound]
  by_cases one : ∃ name init, decl.declarators = [⟨name, some init⟩]
  · obtain ⟨name, init, one⟩ := one
    have emitted : declaration site decl = assignment site name init := by
      unfold declaration
      rw [one]
    unfold VarDecl.peak at high
    rw [one] at high
    rw [emitted, one, List.filterMap_cons_some (by rfl), List.filterMap_nil, Expr.partsOfAll,
      Expr.partsOfAll, List.append_nil, List.forall_mem_singleton]
    exact (assignment_lands name init low high).congr rfl And.right Iff.rfl
  · have refused : declaration site decl = refuse site (.stmt (.declare decl)) := by
      unfold declaration
      split
      · next name init eq => exact absurd ⟨name, init, eq⟩ one
      · rfl
    rw [refused]
    exact refuse_lands fun sound => one sound.1.2.2

/-- The value of a return goes into the scratch register. -/
theorem result_lands (value : Option Expr) {draft : Draft} (low : 0 ≤ draft.depth)
    (high : draft.depth + (value.elim 0 (Expr.peak site.function.vars.length) : Nat) ≤ top) :
    Lands site.function.name top draft.depth ((Stmt.ret value).Sound returnsValue)
      ((Stmt.ret value).Closed site.scope) (result site value) draft := by
  unfold Stmt.Sound Stmt.Closed
  rw [Stmt.operands]
  cases value with
  | none => exact (pure_certain ()).settles ⟨trivial, List.forall_mem_nil _⟩
  | some e =>
    rw [Option.elim_some] at high
    rw [Option.toList_some, Expr.partsOfAll, Expr.partsOfAll, List.append_nil]
    refine ((expr_lands e draft low high).before fun _ _ _ => ?_).congr rfl And.right
      (and_iff_right trivial).symm
    exact (instr_certain (-1) rfl (by omega) (by omega)).to (by omega)

/-- How the code of statements ends under a limit that leaves room for their peak, given all statements in
them. -/
abbrev LandsStmts (site : Site) (top : Int) (returnsValue : Bool) (peak : Nat) (parts : List Stmt)
    (x : Emit Unit) : Prop :=
  ∀ draft : Draft, 0 ≤ draft.depth → draft.depth + peak ≤ top →
    Lands site.function.name top draft.depth (∀ s ∈ parts, s.Sound returnsValue)
      (∀ s ∈ parts, s.Closed site.scope) x draft

/-- Statements in front of others. -/
theorem LandsStmts.append {peak peak' : Nat} {parts rest : List Stmt} {x y : Emit Unit}
    (h : LandsStmts site top returnsValue peak parts x)
    (h' : LandsStmts site top returnsValue peak' rest y) :
    LandsStmts site top returnsValue (max peak peak') (parts ++ rest) (do x; y) := by
  intro draft low high
  rw [List.forall_mem_append, List.forall_mem_append]
  exact (h draft low (by omega)).bind fun _ after _ _ =>
    (h' after (by omega) (by omega)).congr (by omega) id Iff.rfl

/-- A statement that has a condition, and others in it. -/
theorem behind_lands {s : Stmt} {cond : Expr} {parts : List Stmt} {x : Emit Unit} {draft : Draft}
    (low : 0 ≤ draft.depth) (high : draft.depth + cond.peak site.function.vars.length ≤ top)
    (bound : s.Bound site.scope) (operands : s.operands = [cond])
    (next : ∀ after : Draft, after.depth = draft.depth + 1 → Lands site.function.name top draft.depth
      (∀ s ∈ parts, s.Sound returnsValue) (∀ s ∈ parts, s.Closed site.scope) x after) :
    Lands site.function.name top draft.depth (∀ t ∈ s :: parts, t.Sound returnsValue)
      (∀ t ∈ s :: parts, t.Closed site.scope) (do expr site cond; x) draft := by
  rw [List.forall_mem_cons, List.forall_mem_cons, Stmt.Sound, Stmt.Closed, operands, Expr.partsOfAll,
    Expr.partsOfAll, List.append_nil]
  refine ((expr_lands cond draft low high).bind fun _ after _ depth => next after depth).congr rfl
    (fun sound => ⟨sound.1.2, sound.2⟩) ?_
  exact and_congr_left' (and_iff_right bound).symm

/-- A statement that has no statement in it. -/
theorem LandsStmts.leaf {s : Stmt} {peak : Nat} {x : Emit Unit}
    (h : ∀ draft : Draft, 0 ≤ draft.depth → draft.depth + peak ≤ top →
      Lands site.function.name top draft.depth (s.Sound returnsValue) (s.Closed site.scope) x draft) :
    LandsStmts site top returnsValue peak [s] x := by
  intro draft low high
  rw [List.forall_mem_singleton, List.forall_mem_singleton]
  exact h draft low high

mutual

/-- Code is generated for a statement when the statements in it are formed as they should be and their
names have a meaning. -/
theorem stmt_lands (s : Stmt) :
    LandsStmts site top returnsValue (s.peak site.function.vars.length) s.parts (stmt site s) := by
  match s with
  | .block body =>
    intro draft low high
    rw [Stmt.peak] at high
    rw [stmt, Stmt.parts, List.forall_mem_cons, List.forall_mem_cons]
    exact (stmts_land body draft low high).congr rfl And.right
      (and_iff_right ⟨trivial, List.forall_mem_nil _⟩).symm
  | .expr e =>
    rw [stmt, Stmt.parts, Stmt.peak]
    exact .leaf fun _ low high => effect_lands e low high
  | .declare decl =>
    rw [stmt, Stmt.parts, Stmt.peak]
    exact .leaf fun _ low high => declaration_lands decl low high
  | .branch cond yes no =>
    intro draft low high
    rw [Stmt.peak] at high
    rw [stmt, Stmt.parts]
    refine Lands.after fresh_certain fun otherwise before _ _ => ?_
    refine (behind_lands (by omega) (by omega) (by trivial) rfl fun after depth => ?_).congr (by omega)
      id Iff.rfl
    refine Lands.after (jumpIfZero_certain (by omega) (by omega)) fun _ last _ _ => ?_
    exact ((stmt_lands yes).append (alternative_lands otherwise no) last (by omega) (by omega)).congr
      (by omega) id Iff.rfl
  | .loop cond body =>
    intro draft low high
    rw [Stmt.peak] at high
    rw [stmt, Stmt.parts]
    refine Lands.after fresh_certain fun start _ _ _ => Lands.after fresh_certain fun done _ _ _ => ?_
    refine Lands.after (mark_certain (by omega) (by omega)) fun _ before _ _ => ?_
    refine (behind_lands (by omega) (by omega) (by trivial) rfl fun after depth => ?_).congr (by omega)
      id Iff.rfl
    refine Lands.after (jumpIfZero_certain (by omega) (by omega)) fun _ last _ _ => ?_
    refine (stmt_lands body last (by omega) (by omega)).before fun _ _ _ => ?_
    exact (jump_certain (by omega) (by omega)).bind fun _ _ _ =>
      (mark_certain (by omega) (by omega)).to (by omega)
  | .ret value =>
    rw [stmt, Stmt.parts, Stmt.peak]
    refine .leaf fun draft low high => (result_lands value low (by omega)).before fun _ _ _ => ?_
    exact (jump_certain (by omega) (by omega)).to (by omega)

/-- Code is generated for statements in their order. -/
theorem stmts_land (ss : List Stmt) :
    LandsStmts site top returnsValue (Stmt.peakOfAll site.function.vars.length ss) (Stmt.partsOfAll ss)
      (stmts site ss) := by
  match ss with
  | [] =>
    intro draft low high
    rw [stmts, Stmt.partsOfAll]
    exact (pure_certain ()).settles (List.forall_mem_nil _)
  | s :: rest =>
    rw [stmts, Stmt.partsOfAll, Stmt.peakOfAll]
    exact (stmt_lands s).append (stmts_land rest)

/-- Code is generated for what follows the first arm of a branch. -/
theorem alternative_lands (otherwise : Label) (no : Option Stmt) :
    LandsStmts site top returnsValue (Stmt.alternativePeak site.function.vars.length no)
      (Stmt.alternativeParts no) (alternative site otherwise no) := by
  match no with
  | none =>
    intro draft low high
    rw [Stmt.alternativePeak] at high
    rw [alternative, Stmt.alternativeParts]
    exact (mark_certain low (by omega)).settles (List.forall_mem_nil _)
  | some no =>
    intro draft low high
    rw [Stmt.alternativePeak] at high
    rw [alternative, Stmt.alternativeParts]
    refine Lands.after fresh_certain fun _ _ _ _ => ?_
    refine Lands.after (jump_certain (by omega) (by omega)) fun _ _ _ _ => ?_
    refine Lands.after (mark_certain (by omega) (by omega)) fun _ before _ _ => ?_
    exact (stmt_lands no before (by omega) (by omega)).before fun _ _ _ =>
      (mark_certain (by omega) (by omega)).to (by omega)

end

/-- The code of a function up to the label behind its body. -/
def front (site : Site) (entry : Label) : Emit Unit := do
  mark site entry
  each site .pop ((List.range site.function.params).map Register.ofVar).reverse
  stmts site site.function.body
  mark site site.exit

/-- Behind this label is the end of the function. -/
theorem function_eq (site : Site) (entry : Label) :
    function site entry = (do front site entry; epilogue site) := by
  unfold function front
  simp only [bind_assoc]

/-- Up to its end code is generated for a function when its body is formed as it should be and the names in
it have a meaning. Then nothing is on the stack. -/
theorem front_lands (entry : Label) {draft : Draft} (arguments : draft.depth = site.function.params)
    (high : site.function.peak ≤ top) :
    Lands site.function.name top 0
      (∀ s ∈ Stmt.partsOfAll site.function.body, s.Sound site.function.returnsValue)
      (∀ s ∈ Stmt.partsOfAll site.function.body, s.Closed site.scope) (front site entry) draft := by
  have count : (((List.range site.function.params).map Register.ofVar).reverse.length : Int)
      = site.function.params := by
    rw [List.length_reverse, List.length_map, List.length_range]
  unfold CheckedFunction.peak at high
  refine Lands.after (mark_certain (by omega) (by omega)) fun _ _ _ _ => ?_
  refine Lands.after (pops_certain (by omega) (by omega)) fun _ before _ _ => ?_
  refine (stmts_land site.function.body before (by omega) (by omega)).before fun _ _ _ => ?_
  exact (mark_certain (by omega) (by omega)).to (by omega)

/-- Where nothing is on the stack any more the end of a function is generated: of `main` the jump that stops
the machine, and of any other function the two instructions that take the caller's words. -/
theorem epilogue_ends {d : Draft} (empty : d.depth = 0) :
    ∃ last, epilogue site d = .ok ((), last) ∧ last.depth = if site.function.isMain then 0 else -2 := by
  have words : ¬ d.depth ≠ 0 := Decidable.not_not.2 empty
  unfold epilogue
  show ∃ last, (if d.depth ≠ 0 then _ else _ : Emit Unit) d = .ok ((), last) ∧ _
  rw [if_neg words]
  by_cases main : site.function.isMain
  · rw [if_pos main, if_pos main]
    obtain ⟨_, last, jumps, depth⟩ := (@jump_certain (d.depth + 1) site d (.imm halt) (by omega)
      (Int.le_refl _)).succeeds
    exact ⟨last, jumps, depth.trans empty⟩
  · rw [if_neg main, if_neg main]
    refine ⟨_, rfl, ?_⟩
    show d.depth + -1 + -1 = -2
    omega

/-- Code is generated for a function when its body is formed as it should be and the names in it have a
meaning. -/
theorem function_ends (entry : Label) {draft : Draft} (arguments : draft.depth = site.function.params) :
    Ends site.function.name (if site.function.isMain then 0 else -2)
      (∀ s ∈ Stmt.partsOfAll site.function.body, s.Sound site.function.returnsValue)
      (∀ s ∈ Stmt.partsOfAll site.function.body, s.Closed site.scope) (function site entry draft) := by
  have ends : Ends site.function.name (if site.function.isMain then 0 else -2)
      ((∀ s ∈ Stmt.partsOfAll site.function.body, s.Sound site.function.returnsValue) ∧ True)
      ((∀ s ∈ Stmt.partsOfAll site.function.body, s.Closed site.scope) ∧ True)
      ((do front site entry; epilogue site) draft) := by
    refine (front_lands entry arguments (Int.le_refl _)).ends.bind fun _ after _ empty => ?_
    obtain ⟨last, generated, depth⟩ := epilogue_ends empty
    rw [generated]
    exact ⟨depth, trivial⟩
  rw [and_true, and_true, ← function_eq] at ends
  exact ends

end Trees

end Emit

namespace CheckedFunction

/-- The names in the body of a function have a meaning, among the functions of a table. -/
def Closed (f : CheckedFunction) (table : FunctionTable) : Prop :=
  ∀ s ∈ Stmt.partsOfAll f.body, s.Closed (f.scope table)

/-- So many arguments are counted with 32 bits. -/
theorem count_params {f : CheckedFunction} (few : f.params < 2147483648) :
    (Int32.ofNat f.params).toInt = f.params :=
  Int32.toInt_ofNat_of_lt few

/-- A function that is in the table is compiled exactly when the names in its body have a meaning, and
otherwise it is blamed. -/
theorem compile_settles {f : CheckedFunction} {table : FunctionTable} {fuse : Bool} {next : Nat}
    (known : (table.find? f.name).isSome) (few : f.params < 2147483648)
    (sound : ∀ s ∈ Stmt.partsOfAll f.body, s.Sound f.returnsValue) :
    Check.Settles (CompileError.Blames f.name) (f.compile table fuse next) (f.Closed table) := by
  obtain ⟨callee, found⟩ := Option.isSome_iff_exists.1 known
  let site : Site := ⟨f, table, fuse, ⟨next⟩⟩
  let start : Draft := ⟨next + 1, (Int32.ofNat f.params).toInt, []⟩
  have generated : Check.Settles (CompileError.Blames f.name) (Emit.function site callee.entry start)
      (f.Closed table) := (Emit.function_ends callee.entry (count_params few)).settles sound
  unfold compile
  rw [found]
  exact generated.keep fun r => (Routine.mk f.name callee.entry r.2.code, r.2.nextLabel)

end CheckedFunction

namespace Program

/-- Functions that are in the table are compiled exactly when the names in each body have a meaning, and
otherwise the first one that has another name in it is blamed. -/
theorem compileAll_settles {table : FunctionTable} {fuse : Bool} {functions : List CheckedFunction}
    {next : Nat} (known : ∀ f ∈ functions, (table.find? f.name).isSome)
    (few : ∀ f ∈ functions, f.params < 2147483648)
    (sound : ∀ f ∈ functions, ∀ s ∈ Stmt.partsOfAll f.body, s.Sound f.returnsValue) :
    Check.Settles (fun e => ∃ f ∈ functions, e.Blames f.name) (compileAll table fuse functions next)
      (∀ f ∈ functions, f.Closed table) := by
  induction functions generalizing next with
  | nil => exact List.forall_mem_nil _
  | cons f fs ih =>
    rw [List.forall_mem_cons] at known few sound
    rw [compileAll, List.forall_mem_cons]
    refine ((CheckedFunction.compile_settles known.1 few.1 sound.1).widen fun e blames => ?_).bind
      fun (routine, next) _ _ => ((ih known.2 few.2 sound.2).widen fun e fault => ?_).keep
        fun rest => { rest with routines := routine :: rest.routines }
    · exact ⟨f, List.mem_cons_self, blames⟩
    · obtain ⟨g, mem, blames⟩ := fault
      exact ⟨g, List.mem_cons_of_mem _ mem, blames⟩

end Program

end GridStack
