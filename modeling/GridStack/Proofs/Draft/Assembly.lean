import GridStack.Proofs.Frames.Points
import GridStack.Proofs.Simulation.Pieces
import GridStack.Proofs.Words

/-!
# What code is assembled from

The code of a tree is put together from a few kinds of pieces (`Site.Assembled`): constants, pushes and pops
of the registers that hold values, moves between these, operators, jumps inside the function, and calls,
which are the only piece with other code in it. What is said of each kind of piece, and is kept when code is
put together, holds of all code: such a fact needs an induction over the pieces, and none over trees.

The induction over trees ends in `FunctionCode.assembled` and follows the relations between trees and code.
A bound on the words that the stack may have at a place is carried along, as the offset of a frame is the
number of these words. With fusion a move between registers takes the place of a push and the pop behind it,
so the code in front of the push is assembled by itself (`heldCode_assembled`).
-/

namespace GridStack

open Layout (room)

/-- A literal is a word. -/
theorem literalWord?_range {n : Int64} {word : Int32} (h : literalWord? n = some word) :
    0 ≤ word.toInt ∧ word.toInt ≤ 65535 := by
  have content := congrArg Int64.toInt (Reference.literal_eq h)
  rw [Reference.toInt_content, Int32.toInt_toInt64] at content
  have small := (BitVec.ofInt 16 n.toInt).isLt
  omega

namespace Code

/-- A place from which code may have some words more on the stack than there are at the place, as long as
there are no more of them than a limit. -/
def Within (limit : Nat) (depth : Int) (code : List Instr) : Prop :=
  0 ≤ depth ∧ depth + room code ≤ limit

variable {limit : Nat} {depth depth' : Int} {front back block : List Instr}

namespace Within

/-- The first of two pieces of code. -/
theorem left (h : Within limit depth (front ++ back)) : Within limit depth front := by
  unfold Within at h ⊢
  rw [Layout.room_append] at h
  omega

/-- The second of two pieces of code, where the first one may have left words on the stack. -/
theorem right (h : Within limit depth (front ++ back)) (more : 0 ≤ depth')
    (le : depth' ≤ depth + room front) : Within limit depth' back := by
  unfold Within at h ⊢
  rw [Layout.room_append] at h
  omega

/-- The second of two pieces of code, where the first one leaves the stack as it was. -/
theorem past (h : Within limit depth (front ++ back)) : Within limit depth back :=
  h.right h.1 (by omega)

/-- A piece of code that has fewer words below. -/
theorem mono (h : Within limit depth block) (more : 0 ≤ depth') (le : depth' ≤ depth) :
    Within limit depth' block :=
  ⟨more, by have := h.2; omega⟩

end Within

/-- The code of a call in front of the arguments puts its whole window on the stack. -/
theorem room_save (site : Site) (resume : Label) :
    room (save site resume) = site.function.vars.length + frameWords := by
  have pushes : room ((Emit.window site).reverse.map (.imm .push)) = site.function.vars.length := by
    unfold room
    rw [List.countP_eq_length.2 fun i mem => ?_]
    · simp [Emit.window]
    · obtain ⟨r, -, rfl⟩ := List.mem_map.1 mem
      rfl
  rw [save, Layout.room_append, pushes]
  rfl

end Code

/-- The code of an expression has at least one instruction. -/
theorem ExprCode.some_room {site : Site} (e : Expr) {depth : Int} {next : Nat} {block : List Instr}
    (code : ExprCode site depth next e block) : 0 < room block := by
  match e, code with
  -- The last instruction of every form is one that is kept, or there is a jump in front of it.
  | .int _, .int _ => exact Nat.zero_lt_one
  | .var _, .var _ => exact Nat.zero_lt_one
  | .paren inner, .paren code => exact some_room inner code
  | .unary op _, .unary _ =>
    rw [Layout.room_append]
    exact Nat.add_pos_right _ (by cases op <;> decide)
  | .binary op _ _, .binary known _ _ =>
    rw [Layout.room_append, Layout.room_append]
    exact Nat.add_pos_right _ (Nat.add_pos_right _ (by cases op <;> cases known <;> decide))
  | .binary _ _ _, .and _ _ =>
    rw [Layout.room_append, Layout.room_append, Code.room_jumpIfZero]
    omega
  | .binary _ _ _, .or _ _ =>
    rw [Layout.room_append, Layout.room_append, Code.room_jumpIfZero]
    omega
  | .call _ _ _ _, .input _ _ =>
    rw [Layout.room_append]
    exact Nat.add_pos_right _ (by decide)
  | .call _ _ _ _, .call _ _ _ _ =>
    rw [Layout.room_append]
    exact Nat.add_pos_right _ Nat.zero_lt_one

/-- The labels that a function takes come behind those of all entries, the first one being its end. -/
def Site.Own (site : Site) (label : Label) : Prop :=
  site.exit.id ≤ label.id

/-- The entries of the functions that may be called. -/
def Site.Entry (site : Site) (may : String → Prop) (label : Label) : Prop :=
  ∃ name callee, may name ∧ site.table.find? name = some callee ∧ label = callee.entry

/-- The registers that values are moved between: the scratch register, and those of variables. -/
def Site.Values (site : Site) (r : Int32) : Prop :=
  r = Register.scratch ∨ r ∈ Emit.window site

/-- Code that is put together from pieces, in a function that may call functions of some names and whose
frames begin below a limit. -/
inductive Site.Assembled (site : Site) (may : String → Prop) (limit : Nat) : List Instr → Prop
  | nil : Assembled site may limit []
  | append {front back : List Instr} (h : Assembled site may limit front)
      (h' : Assembled site may limit back) : Assembled site may limit (front ++ back)
  | marker (label : Label) : Assembled site may limit [.marker label]
  | number {n : Int32} (low : 0 ≤ n.toInt) (high : n.toInt ≤ 65535) :
      Assembled site may limit [.imm .const n]
  | push {r : Int32} (source : site.Values r) : Assembled site may limit [.imm .push r]
  | pop {r : Int32} (dest : site.Values r) : Assembled site may limit [.imm .pop r]
  | copy {r s : Int32} (dest : site.Values r) (source : site.Values s) :
      Assembled site may limit [.copy r s]
  | plain {op : Opcode} (bare : op.arity = 0) (effect : op ≠ .noop) : Assembled site may limit [.plain op]
  | jump {target : Label} (own : site.Own target) : Assembled site may limit (Code.jump (.label target))
  | branch {target : Label} (own : site.Own target) : Assembled site may limit (Code.jumpIfZero target)
  /-- A call between the variables that are saved and the label to come back to. -/
  | call {resume callee : Label} {offset : Int} {block : List Instr} (own : site.Own resume)
      (entry : site.Entry may callee) (low : 0 ≤ offset) (high : offset < limit)
      (values : Assembled site may limit block) :
      Assembled site may limit
        ([.constant (.label resume), .imm .push Register.base] ++ (block ++ Code.enter offset callee))

namespace Site

variable {site : Site} {may : String → Prop} {limit : Nat}

/-- The register of a variable holds a value. -/
theorem values_ofVar {index : Nat} (inside : index < site.function.vars.length) :
    site.Values (Register.ofVar index) :=
  .inr (List.mem_map_of_mem (List.mem_range.2 inside))

/-- A variable has a register that holds its value. -/
theorem values_of_variableIndex? {name : String} {index : Nat}
    (declared : site.function.variableIndex? name = some index) : site.Values (Register.ofVar index) :=
  values_ofVar (List.idxOf?_eq_some_iff.1 declared).1

namespace Assembled

variable {first second : List Instr} {label label' : Label}

/-- Pushes of registers. -/
theorem pushes {rs : List Int32} (h : ∀ r ∈ rs, site.Values r) :
    site.Assembled may limit (rs.map (.imm .push)) := by
  induction rs with
  | nil => exact .nil
  | cons r rs ih =>
    obtain ⟨source, others⟩ := List.forall_mem_cons.1 h
    exact (push source).append (ih others)

/-- Pops into registers. -/
theorem pops {rs : List Int32} (h : ∀ r ∈ rs, site.Values r) :
    site.Assembled may limit (rs.map (.imm .pop)) := by
  induction rs with
  | nil => exact .nil
  | cons r rs ih =>
    obtain ⟨dest, others⟩ := List.forall_mem_cons.1 h
    exact (pop dest).append (ih others)

/-- An operator that is composed of a constant and an operator of the machine. -/
theorem constant {n : Int32} {op : Opcode} (range : 0 ≤ n.toInt ∧ n.toInt ≤ 65535)
    (operator : op.arity = 0 ∧ op ≠ .noop) : site.Assembled may limit [.imm .const n, .plain op] :=
  (number range.1 range.2).append (plain operator.1 operator.2)

/-- The code behind the operand of an operator. -/
theorem unary (op : UnaryOp) : site.Assembled may limit (Code.unary op) := by
  cases op with
  | neg | not => exact constant (by decide) (by decide)
  | complement => exact plain rfl (by decide)

/-- The code behind the two operands of an operator. -/
theorem binary {op : BinaryOp} {tail : List Instr} (known : Code.binary? op = some tail) :
    site.Assembled may limit tail := by
  cases op <;> cases known
  case bitOr | bitAnd | bitXor | shl | shr | add | mul | eq | lt => exact plain rfl (by decide)
  case sub | le => exact (constant (by decide) (by decide)).append (plain rfl (by decide))
  case ne | ge => exact (plain rfl (by decide)).append (constant (by decide) (by decide))
  case gt =>
    have compared : site.Assembled may limit [.imm .const 1, .plain .add, .plain .lessThan] :=
      (constant (by decide) (by decide)).append (plain rfl (by decide))
    exact compared.append (constant (by decide) (by decide))

/-- The code of `&&`. -/
theorem and (h : site.Assembled may limit first) (here : site.Own label) (there : site.Own label')
    (h' : site.Assembled may limit second) :
    site.Assembled may limit (first ++ (Code.jumpIfZero label ++ (second ++ (Code.jump (.label label') ++
      [.marker label, .imm .const 0, .marker label'])))) := by
  have zero : site.Assembled may limit [.imm .const 0] := .number (by decide) (by decide)
  have otherwise : site.Assembled may limit [.marker label, .imm .const 0, .marker label'] :=
    (marker label).append (zero.append (.marker label'))
  exact h.append ((branch here).append (h'.append ((jump there).append otherwise)))

/-- The code of `||`. -/
theorem or (h : site.Assembled may limit first) (here : site.Own label) (there : site.Own label')
    (h' : site.Assembled may limit second) :
    site.Assembled may limit (first ++ (Code.jumpIfZero label ++ ([.imm .const 1] ++
      (Code.jump (.label label') ++ ([.marker label] ++ (second ++ [.marker label'])))))) := by
  have one : site.Assembled may limit [.imm .const 1] := .number (by decide) (by decide)
  have otherwise : site.Assembled may limit ([.marker label] ++ (second ++ [.marker label'])) :=
    (marker label).append (h'.append (.marker label'))
  exact h.append ((branch here).append (one.append ((jump there).append otherwise)))

/-- The code of a loop. -/
theorem loop (h : site.Assembled may limit first) (here : site.Own label) (there : site.Own label')
    (h' : site.Assembled may limit second) :
    site.Assembled may limit ([.marker label] ++ (first ++ (Code.jumpIfZero label' ++ (second ++
      (Code.jump (.label label) ++ [.marker label']))))) := by
  have again : site.Assembled may limit (second ++ (Code.jump (.label label) ++ [.marker label'])) :=
    h'.append ((jump here).append (.marker label'))
  exact (marker label).append (h.append ((branch there).append again))

end Assembled

end Site

section Trees

variable {site : Site} {may : String → Prop} {limit : Nat}

/-- The code of a call, when that of its arguments is known. -/
theorem callCode_assembled {depth : Int} {next : Nat} {name : String} {callee : Callee} {args : List Expr}
    {block : List Instr} (called : may name) (found : site.table.find? name = some callee)
    (first : site.exit.id ≤ next) (within : Code.Within limit depth block)
    (code : CallCode site depth next callee args block)
    (values : ∀ {depth : Int} {block : List Instr}, Code.Within limit depth block →
      ExprsCode site depth (next + 1) args block → site.Assembled may limit block) :
    site.Assembled may limit block := by
  obtain ⟨arity, inner⟩ := code
  have room_save := Code.room_save site ⟨next⟩
  have start := within.1
  have behind : Code.Within limit (depth + site.function.vars.length + frameWords) _ :=
    within.right (by omega) (by rw [room_save]; omega)
  -- The move of the base stands behind the arguments, and so there is room for one instruction more.
  have moved := behind.past.2
  rw [Layout.room_append, Code.room_enter] at moved
  have saved : site.Assembled may limit ((Emit.window site).reverse.map (.imm .push)) :=
    .pushes fun r mem => .inr (List.mem_reverse.1 mem)
  have entered := Site.Assembled.call (Nat.le_trans first (Nat.le_refl next) : site.Own ⟨next⟩)
    ⟨name, callee, called, found, rfl⟩ behind.1 (by omega) (values behind.left inner)
  have restored : site.Assembled may limit ([.marker ⟨next⟩] ++ Code.restore site) :=
    (Site.Assembled.marker ⟨next⟩).append (.pops fun r mem => .inr mem)
  have whole := saved.append (entered.append restored)
  simpa only [Code.save, List.append_assoc] using whole

mutual

/-- The code of an expression. -/
theorem exprCode_assembled {depth : Int} {next excess : Nat} {block : List Instr} (e : Expr)
    (calls : ∀ call ∈ e.callees excess, may call.1) (first : site.exit.id ≤ next)
    (within : Code.Within limit depth block) (code : ExprCode site depth next e block) :
    site.Assembled may limit block := by
  match e, code with
  | .int _, .int fits =>
    obtain ⟨low, high⟩ := literalWord?_range fits
    exact .number low high
  | .var _, .var declared => exact .push (Site.values_of_variableIndex? declared)
  | .paren inner, .paren code =>
    rw [Expr.callees] at calls
    exact exprCode_assembled inner calls first within code
  | .unary op operand, .unary code =>
    rw [Expr.callees] at calls
    exact (exprCode_assembled operand calls first within.left code).append (.unary op)
  | .binary op lhs rhs, .binary known left right =>
    rw [Expr.callees, List.forall_mem_append] at calls
    have start := within.1
    -- The word that the first operand leaves is paid for by the instructions that put it there.
    have some_room := ExprCode.some_room lhs left
    have second : Code.Within limit (depth + 1) _ := (within.right (by omega) (by omega)).left
    have value := exprCode_assembled lhs calls.1 first within.left left
    have value' := exprCode_assembled rhs calls.2 (by omega) second right
    exact value.append (value'.append (.binary known))
  | .binary .and lhs rhs, .and left right =>
    rw [Expr.callees, List.forall_mem_append] at calls
    have own : site.Own ⟨next⟩ := first
    have own' : site.Own ⟨next + 1⟩ := Nat.le_succ_of_le first
    have value := exprCode_assembled lhs calls.1 (by omega) within.left left
    have value' := exprCode_assembled rhs calls.2 (by omega) within.past.past.left right
    exact value.and own own' value'
  | .binary .or lhs rhs, .or left right =>
    rw [Expr.callees, List.forall_mem_append] at calls
    have own : site.Own ⟨next⟩ := first
    have own' : site.Own ⟨next + 1⟩ := Nat.le_succ_of_le first
    have start := within.1
    -- Generation counts the constant of the first arm while the second operand is generated.
    have test := Code.room_jumpIfZero ⟨next⟩
    have second : Code.Within limit (depth + 1) _ :=
      (within.past.right (by omega) (by omega)).past.past.past.left
    have value := exprCode_assembled lhs calls.1 (by omega) within.left left
    have value' := exprCode_assembled rhs calls.2 (by omega) second right
    exact value.or own own' value'
  | .call _ args _ _, .input arity values =>
    rw [Expr.callees, List.forall_mem_cons] at calls
    have read : site.Assembled may limit [.plain .input, .imm .push Register.scratch] :=
      (Site.Assembled.plain rfl (by decide)).append (.push (.inl rfl))
    exact (exprsCode_assembled args calls.2 first within.left values).append read
  | .call name args _ _, .call user found value code =>
    rw [Expr.callees, List.forall_mem_cons] at calls
    have whole := callCode_assembled calls.1 found first within.left code fun within values =>
      exprsCode_assembled args calls.2 (Nat.le_succ_of_le first) within values
    exact whole.append (.push (.inl rfl))
termination_by structural e

/-- The code of expressions. -/
theorem exprsCode_assembled {depth : Int} {next excess : Nat} {block : List Instr} (es : List Expr)
    (calls : ∀ call ∈ Expr.calleesOfAll excess es, may call.1) (first : site.exit.id ≤ next)
    (within : Code.Within limit depth block) (code : ExprsCode site depth next es block) :
    site.Assembled may limit block := by
  match es, code with
  | [], .nil => exact .nil
  | e :: es, .cons head tail =>
    rw [Expr.calleesOfAll, List.forall_mem_append] at calls
    have start := within.1
    have some_room := ExprCode.some_room e head
    have others : Code.Within limit (depth + 1) _ := within.right (by omega) (by omega)
    have value := exprCode_assembled e calls.1 first within.left head
    have values := exprsCode_assembled es calls.2 (by omega) others tail
    exact value.append values
termination_by structural es

end

/-- The code of a value that is held by a register. -/
theorem heldCode_assembled {depth : Int} {next excess : Nat} {e : Expr} {block : List Instr}
    {source : Int32} (calls : ∀ call ∈ e.callees excess, may call.1) (first : site.exit.id ≤ next)
    (within : Code.Within limit depth block) (held : HeldCode site depth next e block source) :
    site.Assembled may limit block ∧ site.Values source := by
  induction held with
  | var declared => exact ⟨.nil, Site.values_of_variableIndex? declared⟩
  | paren _ ih =>
    rw [Expr.callees] at calls
    exact ih calls within
  | input arity values =>
    rw [Expr.callees, List.forall_mem_cons] at calls
    have arguments := exprsCode_assembled _ calls.2 first within.left values
    exact ⟨arguments.append (.plain rfl (by decide)), .inl rfl⟩
  | call _ found code =>
    rw [Expr.callees, List.forall_mem_cons] at calls
    refine ⟨callCode_assembled calls.1 found first within code fun within values => ?_, .inl rfl⟩
    exact exprsCode_assembled _ calls.2 (Nat.le_succ_of_le first) within values

/-- A value that is moved into a register: with fusion a push may be gone, and a word more may have been on
the stack than the code shows. -/
theorem storeCode_assembled {depth : Int} {next excess : Nat} {e : Expr} {block : List Instr} {dest : Int32}
    (holds : site.Values dest) (calls : ∀ call ∈ e.callees excess, may call.1)
    (first : site.exit.id ≤ next) (start : 0 ≤ depth)
    (within : Code.Within limit (depth + 1) block) (code : StoreCode site depth next e dest block) :
    site.Assembled may limit block := by
  rcases code.popped_or_moved with ⟨popped, rfl, value⟩ | ⟨init, source, rfl, held⟩
  · have assembled := exprCode_assembled e calls first (within.left.mono start (by omega)) value
    exact assembled.append (.pop holds)
  · obtain ⟨assembled, readable⟩ := heldCode_assembled calls first (within.left.mono start (by omega)) held
    refine assembled.append ?_
    -- The move is nothing when the value is in its place already.
    unfold Code.move
    split
    · exact .nil
    · exact .copy holds readable

/-- The code of an expression that is a statement. -/
theorem effectCode_assembled {depth : Int} {next : Nat} {e : Expr} {block : List Instr}
    (calls : ∀ call ∈ e.callees 0, may call.1) (first : site.exit.id ≤ next) (start : 0 ≤ depth)
    (within : Code.Within limit (depth + 1) block) (code : EffectCode site depth next e block) :
    site.Assembled may limit block := by
  cases code with
  | assign declared store =>
    rw [Expr.callees] at calls
    exact storeCode_assembled (Site.values_of_variableIndex? declared) calls first start within store
  | output abscissa ordinate store =>
    simp only [Expr.callees, Expr.calleesOfAll, List.forall_mem_cons, List.forall_mem_append] at calls
    -- Each coordinate leaves a word, and has an instruction to pay for it.
    have some_room := ExprCode.some_room _ abscissa
    have some_room' := ExprCode.some_room _ ordinate
    have second : Code.Within limit (depth + 1 + 1) _ := within.right (by omega) (by omega)
    have third : Code.Within limit (depth + 1 + 1 + 1) _ := (second.right (by omega) (by omega)).left
    have x := exprCode_assembled _ calls.2.1 first (within.left.mono start (by omega)) abscissa
    have y := exprCode_assembled _ calls.2.2.1 (by omega) (second.left.mono (by omega) (by omega)) ordinate
    have value := storeCode_assembled (.inl rfl) calls.2.2.2.1 (by omega) (by omega) third store
    exact x.append (y.append (value.append (.plain rfl (by decide))))
  | call user found code =>
    rw [Expr.callees, List.forall_mem_cons] at calls
    refine callCode_assembled calls.1 found first (within.mono start (by omega)) code fun within values => ?_
    exact exprsCode_assembled _ calls.2 (Nat.le_succ_of_le first) within values

mutual

/-- The code of a statement. -/
theorem stmtCode_assembled {depth : Int} {next : Nat} {block : List Instr} (s : Stmt)
    (calls : ∀ call ∈ s.callees, may call.1) (first : site.exit.id ≤ next) (start : 0 ≤ depth)
    (within : Code.Within limit (depth + 1) block) (code : StmtCode site depth next s block) :
    site.Assembled may limit block := by
  match s, code with
  | .block body, .block code =>
    rw [Stmt.callees] at calls
    exact stmtsCode_assembled body calls first start within code
  | .expr e, .expr code =>
    rw [Stmt.callees] at calls
    exact effectCode_assembled calls first start within code
  | .declare _, .declare declared store =>
    simp only [Stmt.callees, List.flatMap_cons, List.flatMap_nil, List.append_nil, Option.elim] at calls
    exact storeCode_assembled (Site.values_of_variableIndex? declared) calls first start within store
  | .branch cond yes no, .branch test arm other =>
    rw [Stmt.callees, List.forall_mem_append, List.forall_mem_append] at calls
    have own : site.Own ⟨next⟩ := first
    have head := within.left.mono start (by omega)
    have value := exprCode_assembled cond calls.1 (by omega) head test
    have taken := stmtCode_assembled yes calls.2.1 (by omega) start within.past.past.left arm
    have skipped := alternativeCode_assembled no calls.2.2 (by omega) start within.past.past.past other
    exact value.append ((Site.Assembled.branch own).append (taken.append skipped))
  | .loop cond body, .loop test round =>
    rw [Stmt.callees, List.forall_mem_append] at calls
    have own : site.Own ⟨next⟩ := first
    have own' : site.Own ⟨next + 1⟩ := Nat.le_succ_of_le first
    have head := within.past.left.mono start (by omega)
    have value := exprCode_assembled cond calls.1 (by omega) head test
    have once := stmtCode_assembled body calls.2 (by omega) start within.past.past.past.left round
    exact value.loop own own' once
  | .ret none, .leave => exact .jump (Nat.le_refl _)
  | .ret (some value), .ret store =>
    rw [Stmt.callees, Option.elim] at calls
    have result := storeCode_assembled (.inl rfl) calls first start within.left store
    exact result.append (.jump (Nat.le_refl _))
termination_by structural s

/-- The code of statements. -/
theorem stmtsCode_assembled {depth : Int} {next : Nat} {block : List Instr} (ss : List Stmt)
    (calls : ∀ call ∈ Stmt.calleesOfAll ss, may call.1) (first : site.exit.id ≤ next) (start : 0 ≤ depth)
    (within : Code.Within limit (depth + 1) block) (code : StmtsCode site depth next ss block) :
    site.Assembled may limit block := by
  match ss, code with
  | [], .nil => exact .nil
  | s :: rest, .cons head tail =>
    rw [Stmt.calleesOfAll, List.forall_mem_append] at calls
    have one := stmtCode_assembled s calls.1 first start within.left head
    have others := stmtsCode_assembled rest calls.2 (by omega) start within.past tail
    exact one.append others
termination_by structural ss

/-- The code behind the first arm of a branch. -/
theorem alternativeCode_assembled {depth : Int} {next : Nat} {otherwise : Label} {block : List Instr}
    (no : Option Stmt) (calls : ∀ call ∈ Stmt.alternativeCallees no, may call.1)
    (first : site.exit.id ≤ next) (start : 0 ≤ depth) (within : Code.Within limit (depth + 1) block)
    (code : AlternativeCode site depth next otherwise no block) : site.Assembled may limit block := by
  match no, code with
  | none, .none => exact .marker otherwise
  | some no, .some arm =>
    rw [Stmt.alternativeCallees] at calls
    have own : site.Own ⟨next⟩ := first
    have taken := stmtCode_assembled no calls (by omega) start within.past.past.left arm
    have behind := (Site.Assembled.marker otherwise).append (taken.append (.marker ⟨next⟩))
    exact (Site.Assembled.jump own).append behind
termination_by structural no

end

end Trees

/-- The code of a function is assembled up to its end. The frames of its calls begin below as many words as
its code has instructions. -/
theorem FunctionCode.assembled {site : Site} {next : Nat} {entry : Label} {block : List Instr}
    (params_le : site.function.params ≤ site.function.vars.length) (first : site.exit.id ≤ next)
    (h : FunctionCode site next entry block) :
    ∃ inner, block = [.marker entry] ++ (inner ++ ([.marker site.exit] ++ Code.leave site)) ∧
      site.Assembled (fun name => ∃ excess, (name, excess) ∈ Stmt.calleesOfAll site.function.body)
        (room block) inner := by
  obtain @⟨block, body⟩ := h
  have taken : ∀ r ∈ ((List.range site.function.params).map Register.ofVar).reverse, site.Values r := by
    intro r mem
    obtain ⟨index, listed, rfl⟩ := List.mem_map.1 (List.mem_reverse.1 mem)
    exact Site.values_ofVar (Nat.lt_of_lt_of_le (List.mem_range.1 listed) params_le)
  refine ⟨Code.take site ++ block, by simp only [List.append_assoc], ?_⟩
  refine (Site.Assembled.pops taken).append ?_
  -- The two instructions at the end of the function leave room for the word that a fused push has hidden.
  refine stmtsCode_assembled _ (fun call mem => ⟨call.2, mem⟩) first (Int.le_refl 0) ⟨by decide, ?_⟩ body
  simp only [Layout.room_append, Code.room_leave]
  omega

end GridStack
