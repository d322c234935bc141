import GridStack.Proofs.Accepted
import GridStack.Proofs.Words

/-!
# The two evaluations agree

A program is evaluated on its tree (`Reference`) and on registers (`Lowered`). `Agrees` relates how the
two end: with values that belong together, or both out of fuel, and with the same writes in either case.
It is about evaluations of the same fuel, and nothing is said when one of them is stuck. That the one on
registers is not stuck is known from the machine; that the one on the tree is, is what a program is not
told anything about.

There is one difference between them. On the tree a call of `main` comes back, on registers it ends the
program. But `main` depends on nothing that the program can change, so a `main` that calls itself does so
for ever. `function_agrees` is therefore about an amount of fuel with which `main` is never done, and `run_done`
about a `main` that is done with no less.
-/

namespace GridStack

namespace Reference

/-- How an evaluation on the tree and one on registers end, when the registers had `log` as their writes. -/
inductive Agrees {α β : Type} (log : List Write) (post : α → β → Cells → Prop) :
    Evaluation α → Lowered.Outcome β → Prop
  | stopped {x : Evaluation α} {written : List Write} : Agrees log post x (.stop .stuck written)
  | stuck {writes : List Write} {outcome : Lowered.Outcome β} :
      Agrees log post ⟨writes, .stuck⟩ outcome
  | timeout {writes : List Write} :
      Agrees log post ⟨writes, .timeout⟩ (.stop .timeout (writes.reverse ++ log))
  | done {writes : List Write} {a : α} {b : β} {cells : Cells}
      (written : cells.log = writes.reverse ++ log) (at_end : post a b cells) :
      Agrees log post ⟨writes, .done a⟩ (.value b cells)

namespace Agrees

variable {α β γ δ : Type} {log : List Write} {x : Evaluation α} {y : Lowered β} {cells : Cells}

/-- Values that are there. -/
theorem pure {post : α → β → Cells → Prop} {a : α} {b : β} (at_end : post a b cells) :
    Agrees cells.log post (Pure.pure a) ((Pure.pure b : Lowered β) cells) :=
  .done rfl at_end

/-- One evaluation behind another on both sides. The second one may use that the first one has its
value. -/
theorem bind {mid : α → β → Cells → Prop} {post : γ → δ → Cells → Prop} {f : α → Evaluation γ}
    {g : β → Lowered δ} (h : Agrees log mid x (y cells))
    (next : ∀ a b after, x.verdict = .done a → mid a b after → Agrees after.log post (f a) (g b after)) :
    Agrees log post (x >>= f) ((y >>= g) cells) := by
  show Agrees log post (Evaluation.andThen x f) (Lowered.andThen y g cells)
  unfold Evaluation.andThen Lowered.andThen
  generalize y cells = outcome at h
  cases h with
  | stopped => exact .stopped
  | stuck => exact .stuck
  | timeout => exact .timeout
  | @done writes a b after written at_end =>
    have behind := next a b after rfl at_end
    dsimp only
    generalize f a = z at behind
    generalize g b after = outcome at behind
    cases behind with
    | stopped => exact .stopped
    | stuck => exact .stuck
    | @timeout writes' =>
      rw [written, ← List.append_assoc, ← List.reverse_append]
      exact .timeout
    | done written' at_end =>
      refine .done ?_ at_end
      rw [written', written, List.reverse_append, List.append_assoc]

/-- A weaker condition at the end. -/
theorem mono {post post' : α → β → Cells → Prop} {outcome : Lowered.Outcome β}
    (h : Agrees log post x outcome) (weaker : ∀ a b cells, post a b cells → post' a b cells) :
    Agrees log post' x outcome := by
  cases h with
  | stopped => exact .stopped
  | stuck => exact .stuck
  | timeout => exact .timeout
  | done written at_end => exact .done written (weaker _ _ _ at_end)

/-- The end of a program behind an evaluation that is done: on the tree nothing more is written. -/
theorem halts {post : α → β → Cells → Prop} (h : Agrees log post x (y cells)) {f : α → Evaluation γ}
    (quiet : ∀ a, (f a).writes = []) {result : γ} (done : (x >>= f).verdict = .done result) :
    (∃ written, (y >>= fun _ => (Lowered.stop .halted : Lowered Unit)) cells = .stop .stuck written) ∨
      (y >>= fun _ => (Lowered.stop .halted : Lowered Unit)) cells
        = .stop .halted ((x >>= f).writes.reverse ++ log) := by
  change (Evaluation.andThen x f).verdict = .done result at done
  show (∃ written, Lowered.andThen y _ cells = .stop .stuck written) ∨
    Lowered.andThen y _ cells = .stop .halted ((Evaluation.andThen x f).writes.reverse ++ log)
  unfold Evaluation.andThen Lowered.andThen at *
  generalize y cells = outcome at h
  cases h with
  | stopped => exact .inl ⟨_, rfl⟩
  | stuck | timeout => contradiction
  | done written _ =>
    dsimp only [Lowered.stop]
    rw [quiet, List.append_nil, written]
    exact .inr rfl

/-- A branch on a word goes the same way on both sides, and what the scratch register is left with is
passed over. -/
theorem test {post : α → β → Cells → Prop} {word : Word} {left : Option Int64} {a b : Evaluation α}
    {c d : Lowered β}
    (zero : word = 0 → Agrees cells.log post a (c { cells with scratch := left }))
    (other : word ≠ 0 → Agrees cells.log post b (d { cells with scratch := left })) :
    Agrees cells.log post (if word = 0 then a else b)
      ((Lowered.writeScratch left >>= fun _ => if content word = 0 then c else d) cells) := by
  show Agrees cells.log post _ ((if content word = 0 then c else d) { cells with scratch := left })
  by_cases is_zero : word = 0
  · rw [if_pos is_zero, if_pos (content_zero.2 is_zero)]
    exact zero is_zero
  · rw [if_neg is_zero, if_neg (mt content_zero.1 is_zero)]
    exact other is_zero

/-- What is done while registers are kept. -/
theorem saving {f : CheckedFunction} {post post' : α → Unit → Cells → Prop} {y : Lowered Unit}
    (h : Agrees log post x (y cells))
    (restored : ∀ a after, post a () after → post' a () { after with
      vars := fun i => if i < f.vars.length then cells.vars i else after.vars i }) :
    Agrees log post' x (Lowered.saving f y cells) := by
  unfold Lowered.saving
  generalize y cells = outcome at h
  cases h with
  | stopped => exact .stopped
  | stuck => exact .stuck
  | timeout => exact .timeout
  | done written at_end => exact .done written (restored _ _ at_end)

end Agrees

/-- The variables that have a value are in their registers. -/
def Env.Held (env : Env) (f : CheckedFunction) (cells : Cells) : Prop :=
  ∀ name x, env name = some x →
    ∃ index, f.variableIndex? name = some index ∧ cells.vars index = some (content x)

/-- The result that a function leaves behind is in the scratch register. -/
def Left (result : Option Word) (cells : Cells) : Prop :=
  ∀ x, result = some x → cells.scratch = some (content x)

/-- A function without a result leaves nothing to be found. -/
theorem left_none (cells : Cells) : Left none cells := by
  intro x eq
  contradiction

/-- Control goes the same way. -/
def Flow.Same (f : CheckedFunction) : Flow → Lowered.Flow → Cells → Prop
  | .onward env, flow, cells => flow = .onward ∧ env.Held f cells
  | .returned result, flow, cells => flow = .returned ∧ Left result cells

/-- A grid that holds words. -/
def Worded (grid : Grid) : Prop :=
  ∀ entry ∈ grid, 0 ≤ entry.2.toInt ∧ entry.2.toInt ≤ 65535

namespace Env

variable {env : Env} {f : CheckedFunction} {cells : Cells}

/-- The registers of a function's variables are all that matters. -/
theorem Held.of_vars (h : env.Held f cells) {after : Cells}
    (same : ∀ i < f.vars.length, after.vars i = cells.vars i) : env.Held f after := by
  intro name x known
  obtain ⟨index, declared, held⟩ := h name x known
  obtain ⟨lt, -⟩ := List.idxOf?_eq_some_iff.1 declared
  exact ⟨index, declared, (same index lt).trans held⟩

/-- A variable is given a value. -/
theorem Held.set (h : env.Held f cells) {name : String} {index : Nat} (x : Word)
    (declared : f.variableIndex? name = some index) :
    (env.set name x).Held f { cells with
      vars := fun i => if i = index then some (content x) else cells.vars i } := by
  intro other y known
  unfold Env.set at known
  split at known
  · next eq =>
    cases known
    exact ⟨index, by rw [eq, declared], if_pos rfl⟩
  · next different =>
    obtain ⟨place, declared', held⟩ := h other y known
    refine ⟨place, declared', ?_⟩
    -- Two names have two places.
    have apart : place ≠ index := by
      rintro rfl
      unfold CheckedFunction.variableIndex? at declared declared'
      obtain ⟨lt, eq, -⟩ := List.idxOf?_eq_some_iff.1 declared
      obtain ⟨_, eq', -⟩ := List.idxOf?_eq_some_iff.1 declared'
      exact different (eq'.symm.trans eq)
    exact (if_neg apart).trans held

end Env

/-- The value of a cell is the word that it was given. -/
theorem content_read {grid : Grid} (words : Worded grid) (x y : Int64) :
    content (BitVec.ofInt 16 (grid.read x y).toInt) = grid.read x y := by
  have range : 0 ≤ (grid.read x y).toInt ∧ (grid.read x y).toInt ≤ 65535 := by
    unfold Grid.read
    cases found : grid.lookup (x, y) with
    | none => decide
    | some value =>
      obtain ⟨before, after, eq, -⟩ := List.lookup_eq_some_iff.1 found
      exact words ((x, y), value) (by rw [eq]; exact List.mem_append_right before List.mem_cons_self)
  refine Int64.toInt_inj.1 ?_
  rw [toInt_content, BitVec.toNat_ofInt]
  omega

/-- Calls of functions agree. -/
def CallsAgree (call : String → List Word → Evaluation (Option Word))
    (call' : String → List Int64 → Lowered Unit) : Prop :=
  ∀ (name : String) (args : List Word) (cells : Cells), Agrees cells.log (fun result _ after => Left result after)
    (call name args) (call' name (args.map content) cells)

section Body

variable {w : Lowered.World} {f : CheckedFunction}
  {call : String → List Word → Evaluation (Option Word)} {call' : String → List Int64 → Lowered Unit}

/-- Reading a variable. -/
theorem var_agrees {env : Env} {cells : Cells} (held : env.Held f cells) (name : String) (next : Nat) :
    Agrees cells.log (fun x y after => y = content x ∧ env.Held f after) (expr w.grid call env (.var name))
      (Lowered.expr w f call' next (.var name) cells) := by
  rw [expr, Lowered.expr]
  cases known : env name with
  | none => exact .stuck
  | some x =>
    obtain ⟨index, declared, content⟩ := held name x known
    unfold Lowered.readVar
    rw [declared]
    dsimp only
    rw [content]
    exact .pure ⟨rfl, held⟩

/-- An operator between the values of two operands: one that has a meaning on words has a code, and the two
agree on contents. -/
theorem operator_agrees {env : Env} {cells : Cells} (held : env.Held f cells) (op : BinaryOp) (x y : Word) :
    Agrees cells.log (fun x y after => y = content x ∧ env.Held f after)
      (match binary? op with
        | some g => pure (g x y)
        | none => Evaluation.stuck)
      ((match op.lowered? with
        | some g => pure (g (content x) (content y))
        | none => Lowered.stop .stuck : Lowered Int64) cells) := by
  cases known : binary? op with
  | none => exact .stuck
  | some g =>
    obtain ⟨lowered, eq, same⟩ := binary_lowered known
    rw [eq]
    exact .pure ⟨same x y, held⟩

/-- Reading a cell. -/
theorem input_agrees (words : Worded w.grid) {env : Env} {cells : Cells} (held : env.Held f cells)
    (xs : List Word) :
    Agrees cells.log (fun x y after => y = content x ∧ env.Held f after) (input w.grid xs)
      (Lowered.input w (xs.map content) cells) := by
  match xs with
  | [x, y] => exact .done rfl ⟨(content_read words _ _).symm, held.of_vars fun _ _ => rfl⟩
  | [] | [_] | _ :: _ :: _ :: _ => exact .stuck

/-- Writing a cell. -/
theorem output_agrees {env : Env} {cells : Cells} (held : env.Held f cells) (xs : List Word) :
    Agrees cells.log (fun _ _ after => env.Held f after) (output xs)
      (Lowered.output (xs.map content) cells) := by
  match xs with
  | [x, y, value] => exact .done rfl (held.of_vars fun _ _ => rfl)
  | [] | [_] | [_, _] | _ :: _ :: _ :: _ :: _ => exact .stuck

/-- A call whose arguments agree. The callee may do with the registers what it likes. -/
theorem call_agrees (calls : CallsAgree call call') {env : Env} {cells : Cells} (held : env.Held f cells)
    {x : Evaluation (List Word)} {y : Lowered (List Int64)}
    (args : Agrees cells.log (fun xs ys after => ys = xs.map content ∧ env.Held f after) x (y cells))
    (name : String) :
    Agrees cells.log (fun result (_ : Unit) after => Left result after ∧ env.Held f after)
      (x >>= call name) (Lowered.saving f (y >>= call' name) cells) := by
  have called : Agrees cells.log (fun result (_ : Unit) after => Left result after) (x >>= call name)
      ((y >>= call' name) cells) := by
    refine args.bind ?_
    rintro xs _ after - ⟨rfl, -⟩
    exact calls name xs after
  refine called.saving fun result after left => ⟨left, held.of_vars fun i lt => ?_⟩
  exact if_pos lt

mutual

/-- The values of an expression agree. -/
theorem expr_agrees (calls : CallsAgree call call') (words : Worded w.grid) (e : Expr) {env : Env}
    {next : Nat} {cells : Cells} (held : env.Held f cells) :
    Agrees cells.log (fun x y after => y = content x ∧ env.Held f after) (expr w.grid call env e)
      (Lowered.expr w f call' next e cells) := by
  match e with
  | .int n =>
    rw [expr, Lowered.expr]
    cases literal : literalWord? n with
    | none => exact .stopped
    | some word => exact .pure ⟨literal_eq literal, held⟩
  | .var name => exact var_agrees held name next
  | .paren inner =>
    rw [expr, Lowered.expr]
    exact expr_agrees calls words inner held
  | .unary op operand =>
    rw [expr, Lowered.expr]
    refine (expr_agrees calls words operand held).bind ?_
    rintro x _ after - ⟨rfl, held⟩
    exact .pure ⟨unary_lowered op x, held⟩
  | .binary op lhs rhs =>
    rcases op.forms with rfl | rfl | ⟨conjunction, disjunction⟩
    · rw [expr, Lowered.expr]
      refine (expr_agrees calls words lhs held).bind ?_
      rintro x _ after - ⟨rfl, held⟩
      have held' : env.Held f { after with scratch := w.residue next } := held
      exact .test (fun _ => .done rfl ⟨rfl, held'⟩) fun _ => expr_agrees calls words rhs held'
    · rw [expr, Lowered.expr]
      refine (expr_agrees calls words lhs held).bind ?_
      rintro x _ after - ⟨rfl, held⟩
      have held' : env.Held f { after with scratch := w.residue next } := held
      exact .test (fun _ => expr_agrees calls words rhs held') fun _ => .done rfl ⟨rfl, held'⟩
    · rw [expr_binary conjunction disjunction, Lowered.expr_binary _ _ _ conjunction disjunction]
      refine (expr_agrees calls words lhs held).bind ?_
      rintro x _ after - ⟨rfl, held⟩
      refine (expr_agrees calls words rhs held).bind ?_
      rintro y _ after - ⟨rfl, held⟩
      exact operator_agrees held op x y
  | .call name args receiver typeArgs =>
    rw [expr, Lowered.expr]
    by_cases builtin : name = inputName
    · simp only [if_pos builtin]
      refine (exprs_agree calls words args held).bind ?_
      rintro xs _ after - ⟨rfl, held⟩
      exact input_agrees words held xs
    · simp only [if_neg builtin]
      rw [← Evaluation.bind_assoc]
      refine (call_agrees calls held (exprs_agree calls words args held) name).bind ?_
      rintro result _ after - ⟨left, held⟩
      cases result with
      | none => exact .stuck
      | some x =>
        unfold Lowered.readScratch
        rw [left x rfl]
        exact .pure ⟨rfl, held⟩
  | .assign op target value =>
    rw [expr]
    exact .stuck

/-- The values of expressions agree. -/
theorem exprs_agree (calls : CallsAgree call call') (words : Worded w.grid) (es : List Expr) {env : Env}
    {next : Nat} {cells : Cells} (held : env.Held f cells) :
    Agrees cells.log (fun xs ys after => ys = xs.map content ∧ env.Held f after) (exprs w.grid call env es)
      (Lowered.exprs w f call' next es cells) := by
  match es with
  | [] =>
    rw [exprs, Lowered.exprs]
    exact .pure ⟨rfl, held⟩
  | e :: es =>
    rw [exprs, Lowered.exprs]
    refine (expr_agrees calls words e held).bind ?_
    rintro x _ after - ⟨rfl, held⟩
    refine (exprs_agree calls words es held).bind ?_
    rintro xs _ after - ⟨rfl, held⟩
    exact .pure ⟨rfl, held⟩

end

/-- A value that is written to a variable. -/
theorem write_agrees {env : Env} {cells : Cells} (held : env.Held f cells) (name : String) (x : Word) :
    Agrees cells.log (fun env (_ : Unit) after => env.Held f after) (pure (env.set name x))
      (Lowered.writeVar f name (content x) cells) := by
  unfold Lowered.writeVar
  cases declared : f.variableIndex? name with
  | none => exact .stopped
  | some index => exact .done rfl (held.set x declared)

/-- The effect of an expression that is a statement agrees. -/
theorem effect_agrees (calls : CallsAgree call call') (words : Worded w.grid) (e : Expr) {env : Env}
    {next : Nat} {cells : Cells} (held : env.Held f cells) :
    Agrees cells.log (fun env (_ : Unit) after => env.Held f after) (effect w.grid call env e)
      (Lowered.effect w f call' next e cells) := by
  cases e with
  | assign op target value =>
    refine (expr_agrees calls words value held).bind ?_
    rintro x _ after - ⟨rfl, held⟩
    exact write_agrees held target x
  | call name args receiver typeArgs =>
    unfold effect Lowered.effect
    by_cases builtin : name = outputName
    · simp only [if_pos builtin]
      refine (exprs_agree calls words args held).bind ?_
      rintro xs _ after - ⟨rfl, held⟩
      rw [← Lowered.bind_pure (Lowered.output _)]
      refine (output_agrees held xs).bind ?_
      rintro _ _ after - held
      exact .pure held
    · simp only [if_neg builtin]
      rw [← Evaluation.bind_assoc, ← Lowered.bind_pure (Lowered.saving _ _)]
      refine (call_agrees calls held (exprs_agree calls words args held) name).bind ?_
      rintro _ _ after - ⟨-, held⟩
      exact .pure held
  | int _ | var _ | paren _ | unary _ _ | binary _ _ _ => exact .stuck

/-- The effect of a local declaration agrees. -/
theorem declaration_agrees (calls : CallsAgree call call') (words : Worded w.grid) (decl : VarDecl)
    {env : Env} {next : Nat} {cells : Cells} (held : env.Held f cells) :
    Agrees cells.log (fun env (_ : Unit) after => env.Held f after) (declaration w.grid call env decl)
      (Lowered.declaration w f call' next decl cells) := by
  unfold declaration Lowered.declaration
  split
  · next name init eq =>
    rw [eq]
    refine (expr_agrees calls words init held).bind ?_
    rintro x _ after - ⟨rfl, held⟩
    exact write_agrees held name x
  · exact .stuck

/-- The value that a function returns agrees. -/
theorem result_agrees (calls : CallsAgree call call') (words : Worded w.grid) (value : Option Expr)
    {env : Env} {next : Nat} {cells : Cells} (held : env.Held f cells) :
    Agrees cells.log (fun result (_ : Unit) after => Left result after) (result w.grid call env value)
      (Lowered.result w f call' next value cells) := by
  cases value with
  | none => exact .done rfl (left_none _)
  | some e =>
    refine (expr_agrees calls words e held).bind ?_
    rintro x _ after - ⟨rfl, held⟩
    refine .done rfl ?_
    rintro _ ⟨⟩
    rfl

end Body

/-- The rounds of a loop agree when the condition and the body do. -/
theorem rounds_agree {f : CheckedFunction} {cond : Env → Evaluation Word} {body : Env → Evaluation Flow}
    {cond' : Lowered Int64} {body' : Lowered Lowered.Flow} {content' : Option Int64}
    (test : ∀ (env : Env) (cells : Cells), env.Held f cells →
      Agrees cells.log (fun x y after => y = content x ∧ env.Held f after) (cond env) (cond' cells))
    (round : ∀ (env : Env) (cells : Cells), env.Held f cells →
      Agrees cells.log (Flow.Same f) (body env) (body' cells)) (fuel : Nat) {env : Env} {cells : Cells}
    (held : env.Held f cells) :
    Agrees cells.log (Flow.Same f) (rounds cond body fuel env)
      (Lowered.rounds cond' (Lowered.writeScratch content') body' fuel cells) := by
  induction fuel generalizing env cells with
  | zero => exact .timeout
  | succ fuel ih =>
    rw [rounds, Lowered.rounds]
    refine (test env cells held).bind ?_
    rintro x _ after - ⟨rfl, held⟩
    have held' : env.Held f { after with scratch := content' } := held
    refine .test (fun _ => .done rfl ⟨rfl, held'⟩) fun _ => ?_
    refine (round env _ held').bind ?_
    rintro (env | result) _ after - ⟨rfl, at_end⟩
    · exact ih at_end
    · exact .pure ⟨rfl, at_end⟩

section Body

variable {w : Lowered.World} {f : CheckedFunction}
  {call : String → List Word → Evaluation (Option Word)} {call' : String → List Int64 → Lowered Unit}
  {fuel : Nat}

mutual

/-- The effect of a statement agrees. -/
theorem stmt_agrees (calls : CallsAgree call call') (words : Worded w.grid) (s : Stmt) {env : Env}
    {next : Nat} {cells : Cells} (held : env.Held f cells) :
    Agrees cells.log (Flow.Same f) (stmt w.grid call fuel env s)
      (Lowered.stmt w f call' fuel next s cells) := by
  match s with
  | .block body =>
    rw [stmt, Lowered.stmt]
    exact stmts_agree calls words body held
  | .expr e =>
    rw [stmt, Lowered.stmt]
    refine (effect_agrees calls words e held).bind ?_
    rintro env _ after - held
    exact .pure ⟨rfl, held⟩
  | .declare decl =>
    rw [stmt, Lowered.stmt]
    refine (declaration_agrees calls words decl held).bind ?_
    rintro env _ after - held
    exact .pure ⟨rfl, held⟩
  | .branch cond yes no =>
    rw [stmt, Lowered.stmt]
    refine (expr_agrees calls words cond held).bind ?_
    rintro x _ after - ⟨rfl, held⟩
    have held' : env.Held f { after with scratch := w.residue next } := held
    exact .test (fun _ => alternative_agrees calls words no held')
      fun _ => stmt_agrees calls words yes held'
  | .loop cond body =>
    rw [stmt, Lowered.stmt]
    exact rounds_agree (fun _ _ held => expr_agrees calls words cond held)
      (fun _ _ held => stmt_agrees calls words body held) fuel held
  | .ret value =>
    rw [stmt, Lowered.stmt]
    refine (result_agrees calls words value held).bind ?_
    rintro result _ after - left
    exact .pure ⟨rfl, left⟩

/-- The effect of statements agrees. -/
theorem stmts_agree (calls : CallsAgree call call') (words : Worded w.grid) (ss : List Stmt) {env : Env}
    {next : Nat} {cells : Cells} (held : env.Held f cells) :
    Agrees cells.log (Flow.Same f) (stmts w.grid call fuel env ss)
      (Lowered.stmts w f call' fuel next ss cells) := by
  match ss with
  | [] =>
    rw [stmts, Lowered.stmts]
    exact .pure ⟨rfl, held⟩
  | s :: rest =>
    rw [stmts, Lowered.stmts]
    refine (stmt_agrees calls words s held).bind ?_
    rintro (env | result) _ after - ⟨rfl, at_end⟩
    · exact stmts_agree calls words rest at_end
    · exact .pure ⟨rfl, at_end⟩

/-- The effect of the second arm of a branch agrees. -/
theorem alternative_agrees (calls : CallsAgree call call') (words : Worded w.grid) (no : Option Stmt)
    {env : Env} {next : Nat} {cells : Cells} (held : env.Held f cells) :
    Agrees cells.log (Flow.Same f) (alternative w.grid call fuel env no)
      (Lowered.alternative w f call' fuel next no cells) := by
  match no with
  | none =>
    rw [alternative, Lowered.alternative]
    exact .pure ⟨rfl, held⟩
  | some s =>
    rw [alternative, Lowered.alternative]
    exact stmt_agrees calls words s held

end

end Body

/-- The arguments of a call are in the registers of the parameters. -/
theorem held_ofArgs {decl : FunctionDecl} {f : CheckedFunction} (accepts : decl.Accepts f)
    {args : List Word} (arity : args.length = decl.params.length) (cells : Cells) :
    (Env.ofArgs decl.params args).Held f { cells with
      vars := fun i => if i < f.params then (args.map content)[i]? else cells.vars i } := by
  intro name x known
  obtain ⟨before, after, split, -⟩ := List.lookup_eq_some_iff.1 known
  obtain ⟨rest, vars⟩ := accepts.params_prefix
  have pair : ((decl.params.map Param.name).zip args)[before.length]? = some (name, x) := by
    rw [split, List.getElem?_append_right (Nat.le_refl _), Nat.sub_self]
    rfl
  obtain ⟨named, value⟩ := List.getElem?_zip_eq_some.1 pair
  obtain ⟨lt, -⟩ := List.getElem?_eq_some_iff.1 value
  refine ⟨before.length, ?_, ?_⟩
  · have place : f.vars[before.length]? = some name := by
      rw [← vars, List.getElem?_append_left (List.getElem?_eq_some_iff.1 named).1]
      exact named
    obtain ⟨lt', at_place⟩ := List.getElem?_eq_some_iff.1 place
    refine List.idxOf?_eq_some_iff.2 ⟨lt', at_place, fun j hj same => ?_⟩
    have := (List.Nodup.getElem_inj_iff accepts.fit.nodup).1 (same.trans at_place.symm)
    omega
  · have low : before.length < f.params := by
      rw [accepts.params_eq]
      omega
    show (if before.length < f.params then _ else _) = _
    rw [if_pos low, List.getElem?_map, value]
    rfl

section Program

variable {program : Program} {functions : List CheckedFunction} {grid : Grid}
  {residue : Nat → Option Int64}

/-- The body of a function agrees, when the functions that it calls do with one unit of fuel less. -/
theorem body_agrees (words : Worded grid) {fuel : Nat} {decl : FunctionDecl} {f : CheckedFunction}
    (accepts : decl.Accepts f)
    (calls : CallsAgree (function program grid fuel)
      (Lowered.function (.ofFunctions functions grid residue) fuel))
    {args : List Word} (arity : args.length = decl.params.length) (exit : Nat) (cells : Cells) :
    Agrees cells.log (Flow.Same f)
      (stmts grid (function program grid fuel) fuel (.ofArgs decl.params args) decl.body)
      ((do
        Lowered.enter f (args.map content)
        Lowered.stmts (.ofFunctions functions grid residue) f
          (Lowered.function (.ofFunctions functions grid residue) fuel) fuel (exit + 1) f.body) cells) := by
  have words' : Worded (Lowered.World.ofFunctions functions grid residue).grid := words
  rw [accepts.body_eq]
  exact stmts_agree calls words' decl.body (held_ofArgs accepts arity cells)

/-- A function that is declared is found by both evaluations. -/
theorem find?_agrees (accepts : program.Accepts functions) {name : String} {decl : FunctionDecl}
    (found : program.functions.find? (·.name == name) = some decl) :
    ∃ f exit, f ∈ functions ∧ f.name = name ∧ decl.Accepts f ∧
      (Lowered.World.ofFunctions functions grid residue).find? name = some (f, exit) := by
  obtain ⟨f, mem, accepted⟩ := Program.exists_checked accepts.pairs (List.mem_of_find?_eq_some found)
  have same := List.find?_some found
  have named : f.name = name := accepted.name_eq.trans (eq_of_beq same)
  obtain ⟨g, exit, known⟩ : ∃ g exit,
      (Lowered.World.ofFunctions functions grid residue).find? name = some (g, exit) :=
    Lowered.exists_lookup_numbered ⟨f, Program.mem_layoutOrder.2 mem, named⟩
  obtain ⟨mem', named'⟩ := Lowered.of_lookup_numbered known
  obtain rfl := accepts.unique mem (Program.mem_layoutOrder.1 mem') (named.trans named'.symm)
  exact ⟨f, exit, mem, named, accepted, known⟩

/-- A call is done when the body of the function is. -/
theorem function_done {fuel : Nat} {name : String} {args : List Word} {decl : FunctionDecl}
    (found : program.functions.find? (·.name == name) = some decl)
    (arity : args.length = decl.params.length) {flow : Flow}
    (done : (stmts grid (function program grid fuel) fuel (.ofArgs decl.params args) decl.body).verdict
      = .done flow) : ∃ result, (function program grid (fuel + 1) name args).verdict = .done result := by
  rw [function, found]
  dsimp only
  rw [if_pos arity]
  show ∃ result, (Evaluation.andThen _ _).verdict = .done result
  unfold Evaluation.andThen
  rw [done]
  exact ⟨flow.result, rfl⟩

/-- Calls agree, with an amount of fuel for which a call of `main` is never done. -/
theorem function_agrees (words : Worded grid) (accepts : program.Accepts functions) {fuel : Nat}
    (never : ∀ n ≤ fuel, ∀ result, (run program grid n).verdict ≠ .done result) :
    CallsAgree (function program grid fuel)
      (Lowered.function (.ofFunctions functions grid residue) fuel) := by
  induction fuel with
  | zero =>
    intro name args cells
    exact .timeout
  | succ fuel ih =>
    intro name args cells
    have calls := ih fun n le => never n (Nat.le_succ_of_le le)
    rw [function]
    cases found : program.functions.find? (·.name == name) with
    | none => exact .stuck
    | some decl =>
      dsimp only
      by_cases arity : args.length = decl.params.length
      · obtain ⟨f, exit, mem, named, accepted, known⟩ := find?_agrees accepts found
        have body := body_agrees words accepted calls arity exit cells
        rw [Lowered.function, known, if_pos arity]
        dsimp only
        rw [← Lowered.bind_assoc]
        refine body.bind fun flow _ after done same => ?_
        cases main : f.isMain with
        | false =>
          cases flow with
          | onward env => exact .pure (left_none _)
          | returned result => exact .pure same.2
        | true =>
          -- The call would be done, and it is one of `main`.
          obtain ⟨is_main, no_params⟩ := accepts.isMain mem main
          obtain ⟨result, ended⟩ := function_done found arity done
          have no_args : args = [] := by
            rw [← accepted.params_eq, no_params] at arity
            exact List.eq_nil_of_length_eq_zero arity
          rw [no_args, ← named, is_main] at ended
          exact absurd ended (never (fuel + 1) (Nat.le_refl _) result)
      · rw [if_neg arity]
        exact .stuck

/-- A program that runs out of fuel does so on registers. -/
theorem run_timeout (words : Worded grid) (accepts : program.Accepts functions) {fuel : Nat}
    (never : ∀ n ≤ fuel, ∀ result, (run program grid n).verdict ≠ .done result)
    (out : (run program grid fuel).verdict = .timeout) :
    (∃ log, Lowered.run functions grid residue fuel = .stop .stuck log) ∨
      Lowered.run functions grid residue fuel
        = .stop .timeout (run program grid fuel).writes.reverse := by
  have agrees := @function_agrees program functions grid residue words accepts fuel never mainName []
    .initial
  unfold run at out ⊢
  unfold Lowered.run
  generalize function program grid fuel mainName [] = x at agrees out
  rw [List.map_nil] at agrees
  generalize Lowered.function _ fuel mainName [] .initial = outcome at agrees
  cases agrees with
  | stopped => exact .inl ⟨_, rfl⟩
  | stuck | done _ _ => contradiction
  | timeout => exact .inr (congrArg _ (List.append_nil _))

/-- A program that is done, and not with less fuel, comes to the end of `main` on registers. -/
theorem run_done (words : Worded grid) (accepts : program.Accepts functions) {fuel : Nat}
    (never : ∀ n < fuel, ∀ result, (run program grid n).verdict ≠ .done result) {result : Option Word}
    (done : (run program grid fuel).verdict = .done result) :
    (∃ log, Lowered.run functions grid residue fuel = .stop .stuck log) ∨
      Lowered.run functions grid residue fuel
        = .stop .halted (run program grid fuel).writes.reverse := by
  obtain ⟨fuel, rfl⟩ : ∃ n, fuel = n + 1 := by
    cases fuel with
    | zero => contradiction
    | succ n => exact ⟨n, rfl⟩
  have calls := @function_agrees program functions grid residue words accepts fuel
    fun n le => never n (Nat.lt_succ_of_le le)
  unfold run at done ⊢
  rw [function] at done ⊢
  cases found : program.functions.find? (·.name == mainName) with
  | none =>
    rw [found] at done
    contradiction
  | some decl =>
    rw [found] at done
    dsimp only at done ⊢
    by_cases arity : ([] : List Word).length = decl.params.length
    · rw [if_pos arity] at done ⊢
      obtain ⟨f, exit, mem, named, accepted, known⟩ := find?_agrees accepts found
      have main : f.isMain = true := CheckedFunction.isMain_iff.2 named
      have body := body_agrees words accepted calls arity exit .initial
      unfold Lowered.run
      rw [Lowered.function, known]
      dsimp only
      rw [← Lowered.bind_assoc, main]
      have quiet (flow : Flow) : (pure flow.result : Evaluation (Option Word)).writes = [] := rfl
      have ends := body.halts quiet done
      rw [show Cells.initial.log = [] from rfl, List.append_nil] at ends
      exact ends
    · rw [if_neg arity] at done
      contradiction

end Program

end Reference

end GridStack
