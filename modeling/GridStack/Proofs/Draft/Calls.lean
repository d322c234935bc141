import GridStack.Proofs.Draft.Emission

/-!
# Where the calls of a program are in its code

`Expr.calls` and `Stmt.calls` list the calls in a tree. Generation of the tree goes through `Emit.call`
for each of them, and the code that it has then stays as it is (`function_emits`).

Code that has been appended can be changed in one way only: a pop takes a push away that stands at the
end. The code of a call does not end with a push, whatever the number of variables that it restores, and
so what follows cannot reach into it (`Keeps`). With that the proofs follow the recursion of generation: a
call is in one of the parts, the parts in front of that one do not matter, and those behind it keep it.
-/

namespace GridStack

mutual

/-- The calls of functions of the program in an expression, each in front of those in its arguments. -/
def Expr.calls : Expr → List Call
  | .int _ | .var _ => []
  | .paren inner => inner.calls
  | .unary _ operand => operand.calls
  | .binary _ lhs rhs => lhs.calls ++ rhs.calls
  | .assign _ _ value => value.calls
  | .call name args receiver typeArgs =>
    (if name = inputName ∨ name = outputName then [] else [⟨name, args, receiver, typeArgs⟩])
      ++ Expr.callsOfAll args

/-- The calls in expressions. -/
def Expr.callsOfAll : List Expr → List Call
  | [] => []
  | e :: es => e.calls ++ Expr.callsOfAll es

end

mutual

/-- The calls of functions of the program in a statement. -/
def Stmt.calls : Stmt → List Call
  | .block body => Stmt.callsOfAll body
  | .expr value => value.calls
  | .declare decl => decl.declarators.flatMap fun declarator => declarator.init.elim [] Expr.calls
  | .branch cond yes no => cond.calls ++ (yes.calls ++ Stmt.alternativeCalls no)
  | .loop cond body => cond.calls ++ body.calls
  | .ret value => value.elim [] Expr.calls

/-- The calls in statements. -/
def Stmt.callsOfAll : List Stmt → List Call
  | [] => []
  | s :: rest => s.calls ++ Stmt.callsOfAll rest

/-- The calls in the second arm of a branch. -/
def Stmt.alternativeCalls : Option Stmt → List Call
  | none => []
  | some no => no.calls

end

namespace Code

/-- What is appended to code that begins with a solid part keeps this part. -/
theorem Solid.append {part : List Instr} (solid : Solid part) (fuse : Bool) (i : Instr) {code : List Instr}
    (le : part <+: code.reverse) : part <+: (Draft.append fuse i code).reverse := by
  cases code with
  | nil => exact le.trans List.nil_prefix
  | cons last before =>
    have behind : part <+: (i :: last :: before).reverse := by
      rw [List.reverse_cons]
      exact le.trans (List.prefix_append _ _)
    rw [Draft.append]
    split
    · next fused =>
      -- The push that goes is not part of the solid code.
      have short : part <+: before.reverse := by
        rw [List.reverse_cons, List.prefix_concat_iff] at le
        rcases le with rfl | le
        · refine absurd fused.2.2 (solid last ?_)
          rw [List.getLast?_concat]
          rfl
        · exact le
      split
      · split
        · exact short
        · rw [List.reverse_cons]
          exact short.trans (List.prefix_append _ _)
      · exact behind
    · exact behind

end Code

namespace Emit

open Code (Solid)

/-- The code of a call of a function of the program, without the push of its value. -/
def call (site : Site) (call : Call) (asValue : Bool) : Emit Unit := do
  let f ← callee site call asValue
  let (resume, offset) ← callBegin site
  exprs site call.args
  callEnd site f resume offset

/-- A part of generation that keeps solid code at the front of the draft. -/
def Keeps {α : Type} (x : Emit α) : Prop :=
  ∀ (d : Draft) (a : α) (d' : Draft), x d = .ok (a, d') →
    ∀ part, Solid part → part <+: d.code → part <+: d'.code

/-- A call has been generated on the way to a draft, and its code is still there. -/
def Emitted (site : Site) (call : Call) (d : Draft) : Prop :=
  ∃ (asValue : Bool) (start finish : Draft), Emit.call site call asValue start = .ok ((), finish) ∧
    Solid finish.code ∧ finish.code <+: d.code

/-- A part of generation that generates a call. -/
def Emits {α : Type} (site : Site) (call : Call) (x : Emit α) : Prop :=
  ∀ (d : Draft) (a : α) (d' : Draft), x d = .ok (a, d') → Emitted site call d'

variable {α β : Type} {site : Site} {d d' : Draft} {called : Call}

section Keeps

/-- One part behind another. -/
theorem Keeps.bind {x : Emit α} {f : α → Emit β} (h : Keeps x) (h' : ∀ a, Keeps (f a)) :
    Keeps (x >>= f) := by
  intro d b d' succeeds part solid le
  obtain ⟨a, between, first, second⟩ := bind_ok succeeds
  exact h' a between b d' second part solid (h d a between first part solid le)

/-- What only extends the draft keeps all of it. -/
theorem Keeps.of_extend {x : Emit α} (h : ∀ d a d', x d = .ok (a, d') →
    ∃ labels words block, d' = d.extend labels words block) : Keeps x := by
  intro d a d' succeeds part _ le
  obtain ⟨labels, words, block, rfl⟩ := h d a d' succeeds
  rw [Draft.code_extend]
  exact le.trans (List.prefix_append _ _)

/-- What always extends the draft by the same code. -/
theorem Appends.keeps {x : Emit Unit} {labels : Nat} {words : Int} {block : List Instr}
    (h : Appends x labels words block) : Keeps x :=
  .of_extend fun d _ d' succeeds => ⟨labels, words, block, h d d' succeeds⟩

/-- An instruction, which may fuse with a push in front of it. -/
theorem instr_keeps (i : Instr) : Keeps (instr site i) := by
  intro d a d' succeeds part solid le
  unfold instr at succeeds
  dsimp only at succeeds
  split at succeeds
  · contradiction
  · cases succeeds
    exact solid.append site.fuse i le

/-- An expression. -/
theorem expr_keeps (e : Expr) : Keeps (expr site e) := by
  refine .of_extend fun d _ d' succeeds => ?_
  obtain ⟨block, -, eq⟩ := expr_ok e d d' succeeds
  exact ⟨_, _, _, eq⟩

/-- Expressions. -/
theorem exprs_keeps (es : List Expr) : Keeps (exprs site es) := by
  refine .of_extend fun d _ d' succeeds => ?_
  obtain ⟨block, -, eq⟩ := exprs_ok es succeeds
  exact ⟨_, _, _, eq⟩

/-- A statement. -/
theorem stmt_keeps (s : Stmt) : Keeps (stmt site s) := by
  refine .of_extend fun d _ d' succeeds => ?_
  obtain ⟨block, -, eq⟩ := stmt_ok s d d' succeeds
  exact ⟨_, _, _, eq⟩

/-- Statements. -/
theorem stmts_keeps (ss : List Stmt) : Keeps (stmts site ss) := by
  refine .of_extend fun d _ d' succeeds => ?_
  obtain ⟨block, -, eq⟩ := stmts_ok ss succeeds
  exact ⟨_, _, _, eq⟩

/-- The second arm of a branch. -/
theorem alternative_keeps (otherwise : Label) (no : Option Stmt) : Keeps (alternative site otherwise no) := by
  refine .of_extend fun d _ d' succeeds => ?_
  obtain ⟨block, -, eq⟩ := alternative_ok no succeeds
  exact ⟨_, _, _, eq⟩

/-- The second half of a call. -/
theorem callEnd_keeps (f : Callee) (resume : Label) (offset : Int) : Keeps (callEnd site f resume offset) :=
  .of_extend fun _ _ _ succeeds => ⟨_, _, _, callEnd_ok succeeds⟩

end Keeps

section Emits

/-- What stands behind a part that generates a call does not matter when it keeps the code. -/
theorem Emits.andThen {x : Emit α} {f : α → Emit β} (h : Emits site called x) (h' : ∀ a, Keeps (f a)) :
    Emits site called (x >>= f) := by
  intro d b d' succeeds
  obtain ⟨a, between, first, second⟩ := bind_ok succeeds
  obtain ⟨asValue, start, finish, generates, solid, le⟩ := h d a between first
  exact ⟨asValue, start, finish, generates, solid, h' a between b d' second _ solid le⟩

/-- What stands in front of a part that generates a call does not matter. -/
theorem Emits.behind {x : Emit α} {f : α → Emit β} (h : ∀ a, Emits site called (f a)) :
    Emits site called (x >>= f) := by
  intro d b d' succeeds
  obtain ⟨a, between, -, second⟩ := bind_ok succeeds
  exact h a between b d' second

/-- Generation that is refused. -/
theorem emits_refuse (construct : Construct) : Emits site called (refuse site construct : Emit α) := by
  intro d a d' succeeds
  contradiction

/-- What generation of a call appends. -/
theorem call_appends {asValue : Bool} (h : Emit.call site called asValue d = .ok ((), d')) :
    ∃ f block, site.table.find? called.name = some f ∧
      CallCode site d.depth d.nextLabel f called.args block ∧ d'.code = d.code ++ block := by
  unfold Emit.call at h
  obtain ⟨f, d₁, found, h⟩ := bind_ok h
  obtain ⟨⟨resume, offset⟩, d₂, begins, h⟩ := bind_ok h
  obtain ⟨_, d₃, values, ends⟩ := bind_ok h
  obtain ⟨entry, -, block, code, rfl⟩ := call_ok found begins (exprs_ok called.args values) ends
  exact ⟨f, block, entry, code, Draft.code_extend⟩

/-- The code of a call ends with its label or with a pop. -/
theorem solid_of_call {asValue : Bool} (h : Emit.call site called asValue d = .ok ((), d')) :
    Solid d'.code := by
  obtain ⟨f, block, -, ⟨arity, values⟩, eq⟩ := call_appends h
  rw [eq]
  -- Without variables there is nothing to restore, so the label is looked at together with the pops.
  simp only [← List.append_assoc]
  rw [List.append_assoc _ [Instr.marker _]]
  refine Code.solid_append (List.cons_ne_nil _ _) fun i mem => ?_
  rcases List.mem_cons.1 mem with rfl | restored
  · exact ne_of_beq_false rfl
  · obtain ⟨r, -, rfl⟩ := List.mem_map.1 restored
    exact ne_of_beq_false rfl

/-- A call generates itself. -/
theorem call_emits (called : Call) (asValue : Bool) : Emits site called (Emit.call site called asValue) := by
  intro d _ d' succeeds
  exact ⟨asValue, d, d', succeeds, solid_of_call succeeds, List.prefix_refl _⟩

/-- A call generates the calls in its arguments. -/
theorem call_emits_args {outer : Call} (h : Emits site called (exprs site outer.args)) (asValue : Bool) :
    Emits site called (Emit.call site outer asValue) :=
  .behind fun f => .behind fun (resume, offset) => h.andThen fun _ => callEnd_keeps f resume offset

variable {name : String} {args : List Expr} {receiver : Option Expr} {typeArgs : List TypeName}

/-- The code of a call in an expression. -/
theorem expr_call (user : name ≠ inputName) (other : name ≠ outputName) :
    expr site (.call name args receiver typeArgs) = (do
      call site ⟨name, args, receiver, typeArgs⟩ true
      imm site .push Register.scratch) := by
  rw [expr]
  dsimp only
  rw [if_neg user, if_neg other]
  simp only [call, bind_assoc]

/-- The code of a call that is a statement. -/
theorem effect_call (user : name ≠ inputName) (other : name ≠ outputName) :
    effect site (.call name args receiver typeArgs)
      = call site ⟨name, args, receiver, typeArgs⟩ false := by
  unfold effect
  dsimp only
  rw [if_neg other, if_neg user]
  rfl

section Operators

variable {lhs rhs : Expr} (left : called ∈ lhs.calls → Emits site called (expr site lhs))
  (right : called ∈ rhs.calls → Emits site called (expr site rhs))

include left right

/-- The code of `&&`. -/
theorem and_emits (mem : called ∈ lhs.calls ++ rhs.calls) :
    Emits site called (expr site (.binary .and lhs rhs)) := by
  rw [expr]
  refine .behind fun halfway => .behind fun done => ?_
  have tail : Keeps (do
      jump site (.label done)
      mark site halfway
      imm site .const 0
      mark site done
      adjust (-1)) :=
    (appends_jump _).keeps.bind fun _ => (instr_keeps _).bind fun _ => (instr_keeps _).bind fun _ =>
      (instr_keeps _).bind fun _ => (appends_adjust _).keeps
  rcases List.mem_append.1 mem with first | second
  · refine (left first).andThen fun _ => (appends_jumpIfZero halfway).keeps.bind fun _ => ?_
    exact (expr_keeps rhs).bind fun _ => tail
  · exact .behind fun _ => .behind fun _ => (right second).andThen fun _ => tail

/-- The code of `||`. -/
theorem or_emits (mem : called ∈ lhs.calls ++ rhs.calls) :
    Emits site called (expr site (.binary .or lhs rhs)) := by
  rw [expr]
  refine .behind fun halfway => .behind fun done => ?_
  have tail : Keeps (do
      mark site done
      adjust (-1)) :=
    (instr_keeps _).bind fun _ => (appends_adjust _).keeps
  rcases List.mem_append.1 mem with first | second
  · refine (left first).andThen fun _ => (appends_jumpIfZero halfway).keeps.bind fun _ => ?_
    refine (instr_keeps _).bind fun _ => (appends_jump _).keeps.bind fun _ => (instr_keeps _).bind fun _ => ?_
    exact (expr_keeps rhs).bind fun _ => tail
  · refine .behind fun _ => .behind fun _ => .behind fun _ => .behind fun _ => .behind fun _ => ?_
    exact (right second).andThen fun _ => tail

/-- The code of an operator that evaluates both operands. -/
theorem binary_emits {op : BinaryOp} (conjunction : op ≠ .and) (disjunction : op ≠ .or)
    (mem : called ∈ lhs.calls ++ rhs.calls) : Emits site called (expr site (.binary op lhs rhs)) := by
  rw [expr_binary conjunction disjunction]
  have tail : Keeps (binary site (.binary op lhs rhs) op) := by
    refine .of_extend fun d _ d' succeeds => ?_
    obtain ⟨tail, -, eq⟩ := binary_ok succeeds
    exact ⟨_, _, _, eq⟩
  rcases List.mem_append.1 mem with first | second
  · exact (left first).andThen fun _ => (expr_keeps rhs).bind fun _ => tail
  · exact .behind fun _ => (right second).andThen fun _ => tail

end Operators

mutual

/-- Generation of an expression generates the calls in it. -/
theorem expr_emits (e : Expr) (mem : called ∈ e.calls) : Emits site called (expr site e) := by
  -- The call is in one of the parts: what is generated before does not matter, the rest keeps it.
  match e with
  | .int _ | .var _ =>
    rw [Expr.calls] at mem
    exact absurd mem List.not_mem_nil
  | .paren inner =>
    rw [Expr.calls] at mem
    rw [expr]
    exact expr_emits inner mem
  | .unary op operand =>
    rw [Expr.calls] at mem
    rw [expr]
    exact (expr_emits operand mem).andThen fun _ => (appends_unary op).keeps
  | .binary op lhs rhs =>
    rw [Expr.calls] at mem
    have left := fun first => expr_emits lhs first
    have right := fun second => expr_emits rhs second
    rcases op.forms with rfl | rfl | ⟨conjunction, disjunction⟩
    · exact and_emits left right mem
    · exact or_emits left right mem
    · exact binary_emits left right conjunction disjunction mem
  | .call name args receiver typeArgs =>
    rw [Expr.calls, List.mem_append] at mem
    by_cases user : name = inputName
    · rw [if_pos (.inl user)] at mem
      have inner := exprs_emit args (mem.resolve_left List.not_mem_nil)
      rw [expr]
      dsimp only
      rw [if_pos user]
      split
      · exact emits_refuse _
      · exact inner.andThen fun _ => (instr_keeps _).bind fun _ => instr_keeps _
    · by_cases other : name = outputName
      · rw [expr]
        dsimp only
        rw [if_neg user, if_pos other]
        exact emits_refuse _
      · rw [if_neg (not_or.2 ⟨user, other⟩)] at mem
        rw [expr_call user other]
        refine Emits.andThen ?_ fun _ => instr_keeps _
        rcases mem with self | inner
        · rw [List.mem_singleton.1 self]
          exact call_emits _ _
        · exact call_emits_args (exprs_emit args inner) _
  | .assign op target value =>
    rw [expr]
    exact emits_refuse _

/-- Generation of expressions generates the calls in them. -/
theorem exprs_emit (es : List Expr) (mem : called ∈ Expr.callsOfAll es) :
    Emits site called (exprs site es) := by
  match es with
  | [] =>
    rw [Expr.callsOfAll] at mem
    exact absurd mem List.not_mem_nil
  | e :: es =>
    rw [Expr.callsOfAll, List.mem_append] at mem
    rw [exprs]
    rcases mem with head | tail
    · exact (expr_emits e head).andThen fun _ => exprs_keeps es
    · exact .behind fun _ => exprs_emit es tail

end

/-- The code of an assignment. -/
theorem assignment_emits {name : String} {value : Expr} (mem : called ∈ value.calls) :
    Emits site called (assignment site name value) :=
  .behind fun _ => (expr_emits value mem).andThen fun _ => instr_keeps _

/-- Generation of an expression that is a statement generates the calls in it. -/
theorem effect_emits (e : Expr) (mem : called ∈ e.calls) : Emits site called (effect site e) := by
  cases e with
  | assign op target value =>
    rw [Expr.calls] at mem
    exact assignment_emits mem
  | call name args receiver typeArgs =>
    rw [Expr.calls, List.mem_append] at mem
    by_cases other : name = outputName
    · rw [if_pos (.inr other)] at mem
      have inner : Emits site called (exprs site args) :=
        exprs_emit args (mem.resolve_left List.not_mem_nil)
      unfold effect
      dsimp only
      rw [if_pos other]
      split
      · exact emits_refuse _
      · exact inner.andThen fun _ => (instr_keeps _).bind fun _ => instr_keeps _
    · by_cases user : name = inputName
      · unfold effect
        dsimp only
        rw [if_neg other, if_pos user]
        exact emits_refuse _
      · rw [if_neg (not_or.2 ⟨user, other⟩)] at mem
        rw [effect_call user other]
        rcases mem with self | inner
        · rw [List.mem_singleton.1 self]
          exact call_emits _ _
        · exact call_emits_args (exprs_emit args inner) _
  | int _ | var _ | paren _ | unary _ _ | binary _ _ _ => exact emits_refuse _

/-- The code of a local declaration, which has one name and a value when it is accepted. -/
theorem declaration_emits (decl : VarDecl) (mem : called ∈ (Stmt.declare decl).calls) :
    Emits site called (declaration site decl) := by
  rw [Stmt.calls] at mem
  unfold declaration
  split
  · next name init eq =>
    rw [eq, List.flatMap_singleton] at mem
    exact assignment_emits mem
  · exact emits_refuse _

/-- The code that leaves a result. -/
theorem ret_emits (value : Option Expr) (mem : called ∈ (Stmt.ret value).calls) :
    Emits site called (stmt site (.ret value)) := by
  rw [Stmt.calls] at mem
  rw [stmt]
  refine Emits.andThen ?_ fun _ => (appends_jump _).keeps
  cases value with
  | none => exact absurd mem List.not_mem_nil
  | some value => exact (expr_emits value mem).andThen fun _ => instr_keeps _

mutual

/-- Generation of a statement generates the calls in it. -/
theorem stmt_emits (s : Stmt) (mem : called ∈ s.calls) : Emits site called (stmt site s) := by
  match s with
  | .block body =>
    rw [Stmt.calls] at mem
    rw [stmt]
    exact stmts_emit body mem
  | .expr value =>
    rw [Stmt.calls] at mem
    rw [stmt]
    exact effect_emits value mem
  | .declare decl =>
    rw [stmt]
    exact declaration_emits decl mem
  | .branch cond yes no =>
    rw [Stmt.calls, List.mem_append, List.mem_append] at mem
    rw [stmt]
    refine .behind fun otherwise => ?_
    rcases mem with test | arm | other
    · refine (expr_emits cond test).andThen fun _ => (appends_jumpIfZero otherwise).keeps.bind fun _ => ?_
      exact (stmt_keeps yes).bind fun _ => alternative_keeps otherwise no
    · refine .behind fun _ => .behind fun _ => ?_
      exact (stmt_emits yes arm).andThen fun _ => alternative_keeps otherwise no
    · exact .behind fun _ => .behind fun _ => .behind fun _ => alternative_emits otherwise no other
  | .loop cond body =>
    rw [Stmt.calls, List.mem_append] at mem
    rw [stmt]
    refine .behind fun start => .behind fun done => .behind fun _ => ?_
    have tail : Keeps (do
        jump site (.label start)
        mark site done) :=
      (appends_jump _).keeps.bind fun _ => instr_keeps _
    rcases mem with test | round
    · refine (expr_emits cond test).andThen fun _ => (appends_jumpIfZero done).keeps.bind fun _ => ?_
      exact (stmt_keeps body).bind fun _ => tail
    · exact .behind fun _ => .behind fun _ => (stmt_emits body round).andThen fun _ => tail
  | .ret value => exact ret_emits value mem

/-- Generation of statements generates the calls in them. -/
theorem stmts_emit (ss : List Stmt) (mem : called ∈ Stmt.callsOfAll ss) :
    Emits site called (stmts site ss) := by
  match ss with
  | [] =>
    rw [Stmt.callsOfAll] at mem
    exact absurd mem List.not_mem_nil
  | s :: rest =>
    rw [Stmt.callsOfAll, List.mem_append] at mem
    rw [stmts]
    rcases mem with head | tail
    · exact (stmt_emits s head).andThen fun _ => stmts_keeps rest
    · exact .behind fun _ => stmts_emit rest tail

/-- Generation of the second arm of a branch generates the calls in it. -/
theorem alternative_emits (otherwise : Label) (no : Option Stmt) (mem : called ∈ Stmt.alternativeCalls no) :
    Emits site called (alternative site otherwise no) := by
  match no with
  | none =>
    rw [Stmt.alternativeCalls] at mem
    exact absurd mem List.not_mem_nil
  | some s =>
    rw [Stmt.alternativeCalls] at mem
    rw [alternative]
    refine .behind fun done => .behind fun _ => .behind fun _ => ?_
    exact (stmt_emits s mem).andThen fun _ => instr_keeps _

end

/-- Generation of a function generates the calls in its body. -/
theorem function_emits (entry : Label) (mem : called ∈ Stmt.callsOfAll site.function.body) :
    Emits site called (function site entry) := by
  have tail : Keeps (epilogue site) := by
    refine .of_extend fun d _ d' succeeds => ?_
    obtain ⟨-, words, eq⟩ := epilogue_ok succeeds
    exact ⟨_, _, _, eq⟩
  refine .behind fun _ => .behind fun _ => ?_
  exact (stmts_emit _ mem).andThen fun _ => (instr_keeps _).bind fun _ => tail

end Emits

end Emit

end GridStack
