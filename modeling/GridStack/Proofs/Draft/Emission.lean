import GridStack.Proofs.Draft.Stored

/-!
# What generation appends

Generation that succeeds has extended the draft by the code of the tree (`expr_ok`, `stmt_ok`,
`function_ok`), taken as many labels as the tree counts, and put one word on the stack for an expression
and none for a statement. `Appends` says of a part of generation that it always extends the draft by the
same code; it is what the parts that do not look at the draft are described with.

The only place where code is changed that has been appended is a pop behind a push. The parts that pop
without a push in front of them are described with `Draft.Sealed`, and the others are `store_ok`.
-/

namespace GridStack

namespace Draft

/-- The draft with labels taken, words put on the stack and code appended. -/
def extend (draft : Draft) (labels : Nat) (words : Int) (block : List Instr) : Draft where
  nextLabel := draft.nextLabel + labels
  depth := draft.depth + words
  reversed := block.reverse ++ draft.reversed

variable {draft : Draft} {labels labels' : Nat} {words words' : Int} {block block' : List Instr}

/-- An extension takes as many labels as it says. -/
@[simp] theorem nextLabel_extend :
    (draft.extend labels words block).nextLabel = draft.nextLabel + labels := rfl

/-- An extension counts as many words as it says. -/
@[simp] theorem depth_extend : (draft.extend labels words block).depth = draft.depth + words := rfl

/-- The code of the extended draft. -/
theorem code_extend : (draft.extend labels words block).code = draft.code ++ block := by
  unfold extend code
  rw [List.reverse_append, List.reverse_reverse]

/-- Two extensions are one. -/
theorem extend_extend : (draft.extend labels words block).extend labels' words' block'
    = draft.extend (labels + labels') (words + words') (block ++ block') := by
  unfold extend
  simp only [Nat.add_assoc, Int.add_assoc, List.reverse_append, List.append_assoc]

/-- No push stands at the end of the code. -/
def Sealed (draft : Draft) : Prop :=
  ∀ last ∈ draft.reversed.head?, last.op ≠ .push

/-- Code that does not end with a push. -/
theorem sealed_extend {i : Instr} (h : (i.op == .push) = false) :
    (draft.extend labels words [i]).Sealed := by
  rintro last mem
  cases mem
  exact ne_of_beq_false h

/-- An instruction is appended as it is unless it is a pop behind a push. -/
theorem append_eq_cons {fuse : Bool} {i : Instr} {code : List Instr}
    (h : (i.op == .pop) = false ∨ ∀ last ∈ code.head?, last.op ≠ .push) :
    append fuse i code = i :: code := by
  cases code with
  | nil => rfl
  | cons last before =>
    rw [append, if_neg]
    rintro ⟨-, pop, push⟩
    rcases h with h | h
    · exact ne_of_beq_false h pop
    · exact h last rfl push

/-- Only the last instruction of the code matters for what is appended. -/
theorem append_append {fuse : Bool} {i : Instr} {code : List Instr} (h : code ≠ []) (before : List Instr) :
    append fuse i (code ++ before) = append fuse i code ++ before := by
  obtain ⟨last, code, rfl⟩ := List.exists_cons_of_ne_nil h
  rw [List.cons_append, append, append]
  split
  · split
    · split <;> rfl
    · rfl
  · rfl

end Draft

namespace Emit

variable {α β : Type} {site : Site} {d d' : Draft}

/-- Two steps of generation that succeed together succeed one by one. -/
theorem bind_ok {x : Emit α} {f : α → Emit β} {result : β × Draft} (h : (x >>= f) d = .ok result) :
    ∃ a between, x d = .ok (a, between) ∧ f a between = .ok result := by
  change Except.bind (x d) (fun r => f r.1 r.2) = .ok result at h
  cases hx : x d with
  | error e =>
    rw [hx] at h
    contradiction
  | ok r =>
    rw [hx] at h
    exact ⟨r.1, r.2, rfl, h⟩

/-- A part of generation that extends the draft by the same code whenever it succeeds. -/
def Appends (x : Emit Unit) (labels : Nat) (words : Int) (block : List Instr) : Prop :=
  ∀ d d' : Draft, x d = .ok ((), d') → d' = d.extend labels words block

/-- One part behind another. -/
theorem Appends.andThen {x y : Emit Unit} {labels labels' : Nat} {words words' : Int}
    {block block' : List Instr} (hx : Appends x labels words block)
    (hy : Appends y labels' words' block') :
    Appends (do x; y) (labels + labels') (words + words') (block ++ block') := by
  intro d d' h
  obtain ⟨_, between, first, second⟩ := bind_ok h
  rw [hy _ _ second, hx _ _ first, Draft.extend_extend]

/-- An instruction is appended as it is unless it is a pop behind a push. -/
theorem instr_ok {i : Instr} (h : instr site i d = .ok ((), d')) (kept : (i.op == .pop) = false ∨ d.Sealed) :
    d' = d.extend 0 i.op.stackEffect [i] := by
  unfold instr at h
  dsimp only at h
  split at h
  · contradiction
  · cases h
    unfold Draft.extend
    rw [Draft.append_eq_cons kept]
    rfl

/-- An instruction other than a pop. -/
theorem appends_instr {i : Instr} (kept : (i.op == .pop) = false) :
    Appends (instr site i) 0 i.op.stackEffect [i] := fun _ _ h => instr_ok h (.inl kept)

/-- A jump. -/
theorem appends_jump (target : Operand) : Appends (jump site target) 0 0 (Code.jump target) := by
  intro d d' h
  obtain ⟨_, between, first, second⟩ := bind_ok h
  obtain rfl := appends_instr (i := .constant target) rfl _ _ first
  rw [instr_ok second (.inr (Draft.sealed_extend rfl)), Draft.extend_extend]
  rfl

/-- A conditional jump takes the condition off the stack. -/
theorem appends_jumpIfZero (target : Label) :
    Appends (jumpIfZero site target) 0 (-1) (Code.jumpIfZero target) := by
  intro d d' h
  obtain ⟨_, between, first, rest⟩ := bind_ok h
  obtain ⟨_, between', second, third⟩ := bind_ok rest
  obtain rfl := appends_instr (i := .constant (.label target)) rfl _ _ first
  obtain rfl := instr_ok second (.inr (Draft.sealed_extend rfl))
  rw [appends_instr rfl _ _ third, Draft.extend_extend, Draft.extend_extend]
  rfl

/-- A label. -/
theorem appends_mark (label : Label) : Appends (mark site label) 0 0 [.marker label] :=
  appends_instr (i := .marker label) rfl

/-- A label that is taken. -/
theorem fresh_ok {label : Label} (h : fresh d = .ok (label, d')) :
    label = ⟨d.nextLabel⟩ ∧ d' = d.extend 1 0 [] := by
  cases h
  exact ⟨rfl, by simp [Draft.extend]⟩

/-- A change of the count. -/
theorem appends_adjust (change : Int) : Appends (adjust change) 0 change [] := by
  intro d d' h
  cases h
  rfl

/-- Several pushes. -/
theorem appends_pushes (rs : List Int32) :
    Appends (each site .push rs) 0 rs.length (rs.map (.imm .push)) := by
  induction rs with
  | nil =>
    intro d d' h
    cases h
    simp [Draft.extend]
  | cons r rs ih =>
    intro d d' h
    rw [((appends_instr (i := .imm .push r) rfl).andThen ih) _ _ h]
    simp [Draft.extend, Instr.imm, Opcode.stackEffect]
    omega

/-- Several pops, with no push in front of them. -/
theorem pops_ok {rs : List Int32} (h : each site .pop rs d = .ok ((), d')) (closed : d.Sealed) :
    d' = d.extend 0 (-rs.length) (rs.map (.imm .pop)) := by
  induction rs generalizing d with
  | nil =>
    cases h
    simp [Draft.extend]
  | cons r rs ih =>
    obtain ⟨_, between, first, rest⟩ := bind_ok h
    obtain rfl := instr_ok first (.inr closed)
    have words : (Instr.imm .pop r).op.stackEffect + -(rs.length : Int) = -((r :: rs).length : Int) := by
      rw [List.length_cons]
      show (-1 : Int) + _ = _
      omega
    rw [ih rest (Draft.sealed_extend rfl), Draft.extend_extend, words]
    rfl

/-- The register of a variable, if there is one. -/
theorem register_ok {name : String} {r : Int32} (h : register site name d = .ok (r, d')) :
    d' = d ∧ ∃ index, site.function.variableIndex? name = some index ∧ r = Register.ofVar index := by
  unfold register at h
  cases found : site.function.variableIndex? name with
  | none =>
    rw [found] at h
    contradiction
  | some index =>
    rw [found] at h
    cases h
    exact ⟨rfl, index, rfl, rfl⟩

/-- The code of an operator in front of one operand. -/
theorem appends_unary (op : UnaryOp) : Appends (unary site op) 0 0 (Code.unary op) := by
  cases op with
  | neg =>
    exact (appends_instr (i := .imm .const maxWord) rfl).andThen
      (appends_instr (i := .plain .mult) rfl)
  | not =>
    exact (appends_instr (i := .imm .const 0) rfl).andThen
      (appends_instr (i := .plain .equals) rfl)
  | complement => exact appends_instr (i := .plain .not) rfl

/-- The code of an operator between two operands, which is one that the machine has. -/
theorem binary_ok {construct : Expr} {op : BinaryOp} (h : binary site construct op d = .ok ((), d')) :
    ∃ tail, Code.binary? op = some tail ∧ d' = d.extend 0 (-1) tail := by
  have one : ∀ {o : Opcode}, (o == .pop) = false →
      Appends (plain site o) 0 o.stackEffect [.plain o] := fun kept => appends_instr kept
  have isZero : Appends (isZero site) 0 0 (Code.unary .not) := appends_unary .not
  have increment : Appends (increment site) 0 0 [.imm .const 1, .plain .add] :=
    (appends_instr (i := .imm .const 1) rfl).andThen (one rfl)
  have negate : Appends (negate site) 0 0 (Code.unary .neg) := appends_unary .neg
  cases op with
  | bitOr | bitAnd | bitXor | shl | shr | add | mul | eq | lt => exact ⟨_, rfl, one rfl _ _ h⟩
  | sub => exact ⟨_, rfl, (negate.andThen (one rfl)) _ _ h⟩
  | ne => exact ⟨_, rfl, ((one rfl).andThen isZero) _ _ h⟩
  | le => exact ⟨_, rfl, (increment.andThen (one rfl)) _ _ h⟩
  | gt => exact ⟨_, rfl, (increment.andThen ((one rfl).andThen isZero)) _ _ h⟩
  | ge => exact ⟨_, rfl, ((one rfl).andThen isZero) _ _ h⟩
  | and | or | div | rem | ushr => contradiction

/-- The function that a call is for, when the call fits it. -/
theorem callee_ok {call : Call} {asValue : Bool} {f : Callee}
    (h : callee site call asValue d = .ok (f, d')) :
    d' = d ∧ site.table.find? call.name = some f ∧ (asValue = true → f.returnsValue = true) ∧
      call.args.length = f.params := by
  unfold callee at h
  cases found : site.table.find? call.name with
  | none =>
    rw [found] at h
    contradiction
  | some g =>
    rw [found] at h
    dsimp only at h
    split at h
    · contradiction
    · next value =>
      split at h
      · contradiction
      · next arity =>
        cases h
        refine ⟨rfl, rfl, fun asked => ?_, Decidable.not_not.1 arity⟩
        cases returns : f.returnsValue with
        | false => exact absurd ⟨asked, by rw [returns]; decide⟩ value
        | true => rfl

/-- There is a register for each variable in the window. -/
theorem length_window : (window site).length = site.function.vars.length := by
  unfold window
  rw [List.length_map, List.length_range]

/-- The code in front of the arguments of a call. -/
theorem callBegin_ok {resume : Label} {offset : Int}
    (h : callBegin site d = .ok ((resume, offset), d')) :
    resume = ⟨d.nextLabel⟩ ∧ offset = d.depth + site.function.vars.length + frameWords ∧
      d' = d.extend 1 (site.function.vars.length + frameWords) (Code.save site resume) := by
  obtain ⟨_, d₁, pushes, h⟩ := bind_ok h
  obtain ⟨_, d₂, label, h⟩ := bind_ok h
  obtain ⟨_, d₃, target, h⟩ := bind_ok h
  obtain ⟨_, d₄, base, h⟩ := bind_ok h
  obtain rfl := appends_pushes _ _ _ pushes
  cases label
  obtain rfl := appends_instr rfl _ _ target
  obtain rfl := appends_instr rfl _ _ base
  cases h
  have count : (window site).reverse.length = site.function.vars.length :=
    List.length_reverse.trans length_window
  refine ⟨rfl, ?_, ?_⟩
  · simp [Draft.extend, count, Instr.constant, Instr.imm, Opcode.stackEffect, frameWords]
    omega
  · simp [Draft.extend, count, Code.save, Instr.constant, Instr.imm, Opcode.stackEffect, frameWords]
    omega

/-- The code behind the arguments of a call. -/
theorem callEnd_ok {f : Callee} {resume : Label} {offset : Int}
    (h : callEnd site f resume offset d = .ok ((), d')) :
    d' = d.extend 0 (-(f.params + frameWords + site.function.vars.length))
      (Code.enter offset f.entry ++ ([.marker resume] ++ Code.restore site)) := by
  obtain ⟨_, d₁, push, h⟩ := bind_ok h
  obtain ⟨_, d₂, const, h⟩ := bind_ok h
  obtain ⟨_, d₃, add, h⟩ := bind_ok h
  obtain ⟨_, d₄, pop, h⟩ := bind_ok h
  obtain ⟨_, d₅, jumps, h⟩ := bind_ok h
  obtain ⟨_, d₆, marks, h⟩ := bind_ok h
  obtain ⟨_, d₇, adjusts, pops⟩ := bind_ok h
  have h₁ := appends_instr rfl _ _ push
  have h₂ := appends_instr rfl _ _ const
  have h₃ := appends_instr rfl _ _ add
  have h₄ := instr_ok pop (.inr (by rw [h₃]; exact Draft.sealed_extend rfl))
  have h₅ := appends_jump _ _ _ jumps
  have h₆ := appends_mark _ _ _ marks
  have h₇ := appends_adjust _ _ _ adjusts
  -- The mark is the last instruction in front of the pops, so none of these is fused.
  have closed : d₇.Sealed := by
    rw [h₇, h₆, Draft.extend_extend]
    exact Draft.sealed_extend rfl
  rw [pops_ok pops closed, h₇, h₆, h₅, h₄, h₃, h₂, h₁]
  simp only [Draft.extend_extend, length_window, Code.enter, Code.restore, Instr.imm, Instr.plain,
    Opcode.stackEffect, List.append_assoc, List.cons_append, List.nil_append, List.append_nil]
  congr 1
  omega

/-- A call, given what its arguments are. The words of the callee's frame are gone when it is back. -/
theorem call_ok {call : Call} {asValue : Bool} {f : Callee} {resume : Label} {offset : Int}
    {d₁ d₂ d₃ d₄ : Draft} (found : callee site call asValue d = .ok (f, d₁))
    (begins : callBegin site d₁ = .ok ((resume, offset), d₂))
    (values : ∃ block, ExprsCode site d₂.depth d₂.nextLabel call.args block ∧
      d₃ = d₂.extend (Expr.labelsOfAll call.args) call.args.length block)
    (ends : callEnd site f resume offset d₃ = .ok ((), d₄)) :
    site.table.find? call.name = some f ∧ (asValue = true → f.returnsValue = true) ∧
      ∃ block, CallCode site d.depth d.nextLabel f call.args block ∧
        d₄ = d.extend (1 + Expr.labelsOfAll call.args) 0 block := by
  obtain ⟨rfl, entry, value, arity⟩ := callee_ok found
  obtain ⟨rfl, rfl, h₂⟩ := callBegin_ok begins
  obtain ⟨block, code, h₃⟩ := values
  rw [h₂, Draft.depth_extend, Draft.nextLabel_extend, ← Int.add_assoc] at code
  refine ⟨entry, value, _, .mk arity code, ?_⟩
  rw [callEnd_ok ends, h₃, h₂]
  simp only [Draft.extend_extend, List.append_assoc, arity]
  congr 1
  omega

/-- Generation of an expression appends its code. -/
def Generates (site : Site) (e : Expr) : Prop :=
  ∀ d d' : Draft, expr site e d = .ok ((), d') →
    ∃ block, ExprCode site d.depth d.nextLabel e block ∧ d' = d.extend e.labels 1 block

/-- The code of `&&`. -/
theorem Generates.and {lhs rhs : Expr} (left : Generates site lhs) (right : Generates site rhs) :
    Generates site (.binary .and lhs rhs) := by
  intro d d' h
  rw [expr] at h
  obtain ⟨halfway, d₁, takes, h⟩ := bind_ok h
  obtain ⟨rfl, h₁⟩ := fresh_ok takes
  obtain ⟨done, d₂, takes', h⟩ := bind_ok h
  obtain ⟨rfl, h₂⟩ := fresh_ok takes'
  obtain ⟨_, d₃, first, h⟩ := bind_ok h
  obtain ⟨_, d₄, test, h⟩ := bind_ok h
  obtain ⟨_, d₅, second, h⟩ := bind_ok h
  obtain ⟨block, code, h₃⟩ := left _ _ first
  have h₄ := appends_jumpIfZero _ _ _ test
  obtain ⟨back, code', h₅⟩ := right _ _ second
  -- What stands behind the second operand does not look at the draft, and is one part.
  have h₆ := (appends_jump (.label ⟨d₁.nextLabel⟩)).andThen ((appends_mark ⟨d.nextLabel⟩).andThen
    ((appends_instr (i := .imm .const 0) rfl).andThen
      ((appends_mark ⟨d₁.nextLabel⟩).andThen (appends_adjust (-1))))) _ _ h
  -- The places of the operands are said by the draft at the beginning, as the rule has them.
  rw [h₂, h₁] at code
  rw [h₄, h₃, h₂, h₁] at code'
  rw [h₁] at h₆
  refine ⟨_, .and (by simpa using code)
    (by simpa [Nat.add_assoc, Int.add_neg_cancel_right] using code'), ?_⟩
  rw [h₆, h₅, h₄, h₃, h₂, h₁]
  simp [Draft.extend_extend, Expr.labels, Instr.imm, Opcode.stackEffect, Nat.add_assoc]

/-- The code of `||`. -/
theorem Generates.or {lhs rhs : Expr} (left : Generates site lhs) (right : Generates site rhs) :
    Generates site (.binary .or lhs rhs) := by
  intro d d' h
  rw [expr] at h
  obtain ⟨halfway, d₁, takes, h⟩ := bind_ok h
  obtain ⟨rfl, h₁⟩ := fresh_ok takes
  obtain ⟨done, d₂, takes', h⟩ := bind_ok h
  obtain ⟨rfl, h₂⟩ := fresh_ok takes'
  obtain ⟨_, d₃, first, h⟩ := bind_ok h
  obtain ⟨_, d₄, test, h⟩ := bind_ok h
  obtain ⟨_, d₅, one, h⟩ := bind_ok h
  obtain ⟨_, d₆, jumps, h⟩ := bind_ok h
  obtain ⟨_, d₇, marks, h⟩ := bind_ok h
  obtain ⟨_, d₈, second, h⟩ := bind_ok h
  obtain ⟨block, code, h₃⟩ := left _ _ first
  have h₄ := appends_jumpIfZero _ _ _ test
  have h₅ := appends_instr rfl _ _ one
  have h₆ := appends_jump _ _ _ jumps
  have h₇ := appends_mark _ _ _ marks
  obtain ⟨back, code', h₈⟩ := right _ _ second
  have h₉ := (appends_mark ⟨d₁.nextLabel⟩).andThen (appends_adjust (-1)) _ _ h
  -- Between the operands stands the push of the other arm, which is counted where the second one begins.
  rw [h₂, h₁] at code
  rw [h₇, h₆, h₅, h₄, h₃, h₂, h₁] at code'
  rw [h₁] at h₆ h₉
  refine ⟨_, .or (by simpa using code)
    (by simpa [Nat.add_assoc, Int.add_neg_cancel_right, Instr.imm, Opcode.stackEffect] using code'), ?_⟩
  rw [h₉, h₈, h₇, h₆, h₅, h₄, h₃, h₂, h₁]
  simp [Draft.extend_extend, Expr.labels, Instr.imm, Opcode.stackEffect, Nat.add_assoc]

/-- An operator that evaluates both operands. -/
theorem expr_binary {op : BinaryOp} (conjunction : op ≠ .and) (disjunction : op ≠ .or) (lhs rhs : Expr) :
    expr site (.binary op lhs rhs) = (do
      expr site lhs
      expr site rhs
      binary site (.binary op lhs rhs) op) := by
  cases op <;> first | rfl | contradiction

/-- The code of an operator that evaluates both operands. -/
theorem Generates.binary {op : BinaryOp} {lhs rhs : Expr} (left : Generates site lhs)
    (right : Generates site rhs) (conjunction : op ≠ .and) (disjunction : op ≠ .or) :
    Generates site (.binary op lhs rhs) := by
  intro d d' h
  rw [expr_binary conjunction disjunction] at h
  obtain ⟨_, d₁, first, h⟩ := bind_ok h
  obtain ⟨_, d₂, second, last⟩ := bind_ok h
  obtain ⟨block, code, h₁⟩ := left _ _ first
  obtain ⟨back, code', h₂⟩ := right _ _ second
  obtain ⟨tail, known, h₃⟩ := binary_ok last
  rw [h₁] at code'
  refine ⟨_, .binary known code code', ?_⟩
  rw [h₃, h₂, h₁]
  simp [Draft.extend_extend, Expr.labels, conjunction, disjunction]

mutual

/-- Generation of an expression appends its code. -/
theorem expr_ok (e : Expr) : Generates site e := by
  intro d d' h
  match e with
  | .int n =>
    rw [expr] at h
    cases fits : literalWord? n with
    | none =>
      rw [fits] at h
      contradiction
    | some word =>
      rw [fits] at h
      exact ⟨_, .int fits, appends_instr rfl _ _ h⟩
  | .var name =>
    rw [expr] at h
    obtain ⟨r, d₁, found, push⟩ := bind_ok h
    obtain ⟨rfl, index, declared, rfl⟩ := register_ok found
    exact ⟨_, .var declared, appends_instr rfl _ _ push⟩
  | .paren inner =>
    rw [expr] at h
    obtain ⟨block, code, eq⟩ := expr_ok inner _ _ h
    exact ⟨block, .paren code, eq⟩
  | .unary op operand =>
    rw [expr] at h
    obtain ⟨_, d₁, first, second⟩ := bind_ok h
    obtain ⟨block, code, eq⟩ := expr_ok operand _ _ first
    refine ⟨_, .unary code, ?_⟩
    rw [appends_unary op _ _ second, eq, Draft.extend_extend]
    rfl
  | .binary op lhs rhs =>
    have left := expr_ok lhs
    have right := expr_ok rhs
    rcases op.forms with rfl | rfl | ⟨conjunction, disjunction⟩
    · exact left.and right _ _ h
    · exact left.or right _ _ h
    · exact left.binary right conjunction disjunction _ _ h
  | .call name args receiver typeArgs =>
    rw [expr] at h
    dsimp only at h
    split at h
    · next builtin =>
      split at h
      · contradiction
      · next arity =>
        obtain ⟨_, d₁, first, h⟩ := bind_ok h
        obtain ⟨block, values, h₁⟩ := exprs_ok args first
        have two : args.length = 2 := Decidable.not_not.1 arity
        have h₂ := (appends_instr (i := .plain .input) rfl).andThen
          (appends_instr (i := .imm .push Register.scratch) rfl) _ _ h
        rw [builtin]
        refine ⟨_, .input two values, ?_⟩
        rw [h₂, h₁, two]
        simp [Draft.extend_extend, Expr.labels, Instr.imm, Instr.plain, Opcode.stackEffect]
    · next user =>
      split at h
      · contradiction
      · obtain ⟨f, d₁, found, h⟩ := bind_ok h
        obtain ⟨⟨resume, offset⟩, d₂, begins, h⟩ := bind_ok h
        obtain ⟨_, d₃, values, h⟩ := bind_ok h
        obtain ⟨_, d₄, ends, last⟩ := bind_ok h
        obtain ⟨entry, value, block, code, h₄⟩ := call_ok found begins (exprs_ok args values) ends
        refine ⟨_, .call user entry (value rfl) code, ?_⟩
        rw [appends_instr rfl _ _ last, h₄, Draft.extend_extend, Expr.labels, if_neg user]
        rfl
  | .assign op target value =>
    rw [expr] at h
    contradiction

/-- Generation of expressions appends their code. -/
theorem exprs_ok (es : List Expr) {d d' : Draft} (h : exprs site es d = .ok ((), d')) :
    ∃ block, ExprsCode site d.depth d.nextLabel es block ∧
      d' = d.extend (Expr.labelsOfAll es) es.length block := by
  match es with
  | [] =>
    rw [exprs] at h
    cases h
    exact ⟨[], .nil, by simp [Draft.extend, Expr.labelsOfAll]⟩
  | e :: es =>
    rw [exprs] at h
    obtain ⟨_, d₁, first, rest⟩ := bind_ok h
    obtain ⟨block, code, h₁⟩ := expr_ok e _ _ first
    obtain ⟨back, codes, h₂⟩ := exprs_ok es rest
    rw [h₁] at codes
    refine ⟨block ++ back, .cons code codes, ?_⟩
    rw [h₂, h₁, Draft.extend_extend, Expr.labelsOfAll, List.length_cons]
    congr 1
    omega

end

/-- Every expression has code. -/
theorem ne_nil_of_exprCode {depth : Int} {next : Nat} {block : List Instr} :
    (e : Expr) → ExprCode site depth next e block → block ≠ []
  | .paren inner, .paren code => ne_nil_of_exprCode inner code
  | .int _, .int _ => List.cons_ne_nil _ _
  | .var _, .var _ => List.cons_ne_nil _ _
  | .unary op _, .unary _ => by cases op <;> simp [Code.unary]
  | .binary op _ _, .binary known _ _ => by
    cases op <;> cases known <;> simp
  | .binary _ _ _, .and _ _ => by simp
  | .binary _ _ _, .or _ _ => by simp
  | .call _ _ _ _, .input _ _ => by simp
  | .call _ _ _ _, .call _ _ _ _ => by simp
termination_by structural e => e

/-- A pop behind an expression, the only one that can be behind a push. -/
theorem store_ok {e : Expr} {r : Int32} {between : Draft} (first : expr site e d = .ok ((), between))
    (second : imm site .pop r between = .ok ((), d')) :
    ∃ block, StoreCode site d.depth d.nextLabel e r block ∧ d' = d.extend e.labels 0 block := by
  obtain ⟨block, code, h₁⟩ := expr_ok e _ _ first
  refine ⟨_, .mk code, ?_⟩
  unfold imm instr at second
  dsimp only at second
  split at second
  · contradiction
  · cases second
    -- The last instruction in front of the pop is one of the expression, whatever the draft was before.
    have some_code : block.reverse ≠ [] := by
      rw [Ne, List.reverse_eq_nil_iff]
      exact ne_nil_of_exprCode e code
    rw [h₁]
    unfold Draft.extend Code.store
    rw [Draft.append_append some_code, List.reverse_reverse, Int.add_assoc]
    rfl

/-- The code of an assignment. -/
theorem assignment_ok {name : String} {value : Expr} (h : assignment site name value d = .ok ((), d')) :
    ∃ index block, site.function.variableIndex? name = some index ∧
      StoreCode site d.depth d.nextLabel value (Register.ofVar index) block ∧
        d' = d.extend value.labels 0 block := by
  obtain ⟨r, d₁, found, h⟩ := bind_ok h
  obtain ⟨rfl, index, declared, rfl⟩ := register_ok found
  obtain ⟨_, d₂, first, second⟩ := bind_ok h
  obtain ⟨block, code, eq⟩ := store_ok first second
  exact ⟨index, block, declared, code, eq⟩

/-- Generation of an expression that is a statement appends its code. -/
theorem effect_ok {e : Expr} (h : effect site e d = .ok ((), d')) :
    ∃ block, EffectCode site d.depth d.nextLabel e block ∧ d' = d.extend e.effectLabels 0 block := by
  cases e with
  | assign op target value =>
    obtain ⟨index, block, declared, code, eq⟩ := assignment_ok h
    exact ⟨block, .assign declared code, eq⟩
  | call name args receiver typeArgs =>
    rw [effect] at h
    dsimp only at h
    split at h
    · next builtin =>
      split at h
      · contradiction
      · next arity =>
        -- The three arguments are taken apart, as the pop behind the third one belongs to its code.
        obtain ⟨x, y, value, rfl⟩ : ∃ x y value, args = [x, y, value] := by
          match args, Decidable.not_not.1 arity with
          | [x, y, value], _ => exact ⟨x, y, value, rfl⟩
        obtain ⟨_, d₃, values, h⟩ := bind_ok h
        rw [exprs] at values
        obtain ⟨_, d₁, first, values⟩ := bind_ok values
        rw [exprs] at values
        obtain ⟨_, d₂, second, values⟩ := bind_ok values
        rw [exprs] at values
        obtain ⟨_, d₃, third, values⟩ := bind_ok values
        rw [exprs] at values
        cases values
        obtain ⟨_, d₄, pop, last⟩ := bind_ok h
        obtain ⟨block, code, h₁⟩ := expr_ok x _ _ first
        obtain ⟨block', code', h₂⟩ := expr_ok y _ _ second
        obtain ⟨block'', code'', h₃⟩ := store_ok third pop
        rw [h₁] at code'
        rw [h₂, h₁] at code''
        rw [builtin]
        refine ⟨_, .output code code' code'', ?_⟩
        rw [appends_instr rfl _ _ last, h₃, h₂, h₁]
        simp [Draft.extend_extend, Expr.effectLabels, Expr.labelsOfAll, Instr.plain, Opcode.stackEffect,
          Nat.add_assoc]
    · next user =>
      split at h
      · contradiction
      · obtain ⟨f, d₁, found, h⟩ := bind_ok h
        obtain ⟨⟨resume, offset⟩, d₂, begins, h⟩ := bind_ok h
        obtain ⟨_, d₃, values, ends⟩ := bind_ok h
        obtain ⟨entry, -, block, code, eq⟩ := call_ok found begins (exprs_ok args values) ends
        refine ⟨block, .call user entry code, ?_⟩
        rw [eq, Expr.effectLabels, if_neg user]
  | int _ | var _ | paren _ | unary _ _ | binary _ _ _ => contradiction

/-- A statement, of which generation appends the code. -/
def GeneratesStmt (site : Site) (s : Stmt) : Prop :=
  ∀ d d' : Draft, stmt site s d = .ok ((), d') →
    ∃ block, StmtCode site d.depth d.nextLabel s block ∧ d' = d.extend s.labels 0 block

/-- The code of a local declaration. -/
theorem generatesStmt_declare (decl : VarDecl) : GeneratesStmt site (.declare decl) := by
  intro d d' h
  rw [stmt] at h
  obtain ⟨type, modifiers, declarators⟩ := decl
  unfold declaration at h
  match declarators with
  | [⟨name, some init⟩] =>
    obtain ⟨index, block, declared, code, eq⟩ := assignment_ok h
    exact ⟨block, .declare declared code, eq⟩
  | [] | [⟨_, none⟩] | ⟨_, none⟩ :: _ :: _ | ⟨_, some _⟩ :: _ :: _ => contradiction

/-- The code of a return. -/
theorem generatesStmt_ret (value : Option Expr) : GeneratesStmt site (.ret value) := by
  intro d d' h
  rw [stmt] at h
  obtain ⟨_, d₁, first, jumps⟩ := bind_ok h
  cases value with
  | none =>
    cases first
    exact ⟨_, .leave, appends_jump _ _ _ jumps⟩
  | some value =>
    obtain ⟨_, d₂, first, second⟩ := bind_ok first
    obtain ⟨block, code, eq⟩ := store_ok first second
    refine ⟨_, .ret code, ?_⟩
    rw [appends_jump _ _ _ jumps, eq, Draft.extend_extend]
    rfl

mutual

/-- Generation of a statement appends its code. -/
theorem stmt_ok (s : Stmt) : GeneratesStmt site s := by
  intro d d' h
  match s with
  | .block body =>
    rw [stmt] at h
    obtain ⟨block, code, eq⟩ := stmts_ok body h
    exact ⟨block, .block code, eq⟩
  | .expr value =>
    rw [stmt] at h
    obtain ⟨block, code, eq⟩ := effect_ok h
    exact ⟨block, .expr code, eq⟩
  | .declare decl => exact generatesStmt_declare decl _ _ h
  | .branch cond yes no =>
    rw [stmt] at h
    obtain ⟨otherwise, d₁, takes, h⟩ := bind_ok h
    obtain ⟨rfl, h₁⟩ := fresh_ok takes
    obtain ⟨_, d₂, first, h⟩ := bind_ok h
    obtain ⟨_, d₃, test, h⟩ := bind_ok h
    obtain ⟨_, d₄, second, third⟩ := bind_ok h
    obtain ⟨block, code, h₂⟩ := expr_ok cond _ _ first
    have h₃ := appends_jumpIfZero _ _ _ test
    obtain ⟨back, code', h₄⟩ := stmt_ok yes _ _ second
    obtain ⟨rest, code'', h₅⟩ := alternative_ok no third
    rw [h₁] at code
    rw [h₃, h₂, h₁] at code'
    rw [h₄, h₃, h₂, h₁] at code''
    refine ⟨_, .branch (by simpa using code)
      (by simpa [Int.add_neg_cancel_right] using code')
      (by simpa [Int.add_neg_cancel_right] using code''), ?_⟩
    rw [h₅, h₄, h₃, h₂, h₁]
    simp [Draft.extend_extend, Stmt.labels, Nat.add_assoc]
  | .loop cond body =>
    rw [stmt] at h
    obtain ⟨start, d₁, takes, h⟩ := bind_ok h
    obtain ⟨rfl, h₁⟩ := fresh_ok takes
    obtain ⟨done, d₂, takes', h⟩ := bind_ok h
    obtain ⟨rfl, h₂⟩ := fresh_ok takes'
    obtain ⟨_, d₃, marks, h⟩ := bind_ok h
    obtain ⟨_, d₄, first, h⟩ := bind_ok h
    obtain ⟨_, d₅, test, h⟩ := bind_ok h
    obtain ⟨_, d₆, second, h⟩ := bind_ok h
    have h₃ := appends_mark _ _ _ marks
    obtain ⟨block, code, h₄⟩ := expr_ok cond _ _ first
    have h₅ := appends_jumpIfZero _ _ _ test
    obtain ⟨back, code', h₆⟩ := stmt_ok body _ _ second
    have h₇ := (appends_jump (.label ⟨d.nextLabel⟩)).andThen (appends_mark ⟨d₁.nextLabel⟩) _ _ h
    rw [h₃, h₂, h₁] at code
    rw [h₅, h₄, h₃, h₂, h₁] at code'
    rw [h₁] at h₅ h₇
    refine ⟨_, .loop (by simpa using code)
      (by simpa [Nat.add_assoc, Int.add_neg_cancel_right] using code'), ?_⟩
    rw [h₇, h₆, h₅, h₄, h₃, h₂, h₁]
    simp [Draft.extend_extend, Stmt.labels, Nat.add_assoc]
  | .ret value => exact generatesStmt_ret value _ _ h

/-- Generation of statements appends their code. -/
theorem stmts_ok (ss : List Stmt) {d d' : Draft} (h : stmts site ss d = .ok ((), d')) :
    ∃ block, StmtsCode site d.depth d.nextLabel ss block ∧
      d' = d.extend (Stmt.labelsOfAll ss) 0 block := by
  match ss with
  | [] =>
    rw [stmts] at h
    cases h
    exact ⟨[], .nil, by simp [Draft.extend, Stmt.labelsOfAll]⟩
  | s :: rest =>
    rw [stmts] at h
    obtain ⟨_, d₁, first, behind⟩ := bind_ok h
    obtain ⟨block, code, h₁⟩ := stmt_ok s _ _ first
    obtain ⟨back, codes, h₂⟩ := stmts_ok rest behind
    rw [h₁] at codes
    refine ⟨block ++ back, .cons code (by simpa using codes), ?_⟩
    rw [h₂, h₁, Draft.extend_extend, Stmt.labelsOfAll]
    rfl

/-- Generation of the second arm of a branch appends its code. -/
theorem alternative_ok (no : Option Stmt) {otherwise : Label} {d d' : Draft}
    (h : alternative site otherwise no d = .ok ((), d')) :
    ∃ block, AlternativeCode site d.depth d.nextLabel otherwise no block ∧
      d' = d.extend (Stmt.alternativeLabels no) 0 block := by
  match no with
  | none =>
    rw [alternative] at h
    exact ⟨_, .none, appends_mark _ _ _ h⟩
  | some s =>
    rw [alternative] at h
    obtain ⟨done, d₁, takes, h⟩ := bind_ok h
    obtain ⟨rfl, h₁⟩ := fresh_ok takes
    obtain ⟨_, d₂, jumps, h⟩ := bind_ok h
    obtain ⟨_, d₃, marks, h⟩ := bind_ok h
    obtain ⟨_, d₄, arm, last⟩ := bind_ok h
    have h₂ := appends_jump _ _ _ jumps
    have h₃ := appends_mark _ _ _ marks
    obtain ⟨block, code, h₄⟩ := stmt_ok s _ _ arm
    rw [h₃, h₂, h₁] at code
    refine ⟨_, .some (by simpa using code), ?_⟩
    rw [appends_mark _ _ _ last, h₄, h₃, h₂, h₁]
    simp [Draft.extend_extend, Stmt.alternativeLabels]

end

/-- The end of a function, which is generated where nothing is on the stack. -/
theorem epilogue_ok (h : epilogue site d = .ok ((), d')) :
    d.depth = 0 ∧ ∃ words, d' = d.extend 0 words (Code.leave site) := by
  obtain ⟨words, d₁, count, h⟩ := bind_ok h
  cases count
  unfold Code.leave
  split at h
  · contradiction
  · next empty =>
    refine ⟨Decidable.not_not.1 empty, ?_⟩
    split at h
    · next main =>
      rw [if_pos main]
      exact ⟨0, appends_jump _ _ _ h⟩
    · next other =>
      rw [if_neg other]
      -- The two pops are put behind the draft directly, and cannot fuse.
      obtain ⟨_, d₂, base, pc⟩ := bind_ok h
      cases base
      cases pc
      exact ⟨-1 + -1, by unfold Draft.extend; rw [← Int.add_assoc]; rfl⟩

/-- Generation of a function appends its code. It succeeds only if the count at the start is that of the
arguments. -/
theorem function_ok {entry : Label} {next : Nat} {words : Int}
    (h : function site entry ⟨next, words, []⟩ = .ok ((), d')) :
    FunctionCode site next entry d'.code ∧ d'.nextLabel = next + Stmt.labelsOfAll site.function.body := by
  obtain ⟨_, d₁, marks, h⟩ := bind_ok h
  obtain ⟨_, d₂, pops, h⟩ := bind_ok h
  obtain ⟨_, d₃, body, h⟩ := bind_ok h
  obtain ⟨_, d₄, exit, leave⟩ := bind_ok h
  have h₁ := appends_mark _ _ _ marks
  have h₂ := pops_ok pops (by rw [h₁]; exact Draft.sealed_extend rfl)
  obtain ⟨block, code, h₃⟩ := stmts_ok _ body
  have h₄ := appends_mark _ _ _ exit
  obtain ⟨empty, left, h₅⟩ := epilogue_ok leave
  -- The body begins with as many words as it ends with, and these are none.
  have ground : d₂.depth = 0 := by
    rw [h₄, h₃] at empty
    simpa using empty
  rw [ground, h₂, h₁] at code
  have stmts : StmtsCode site 0 next site.function.body block := by simpa using code
  rw [h₅, h₄, h₃, h₂, h₁]
  simp only [Draft.extend_extend, Draft.code_extend, List.append_assoc]
  exact ⟨.mk stmts, by simp⟩

end Emit

end GridStack
