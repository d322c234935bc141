import GridStack.Proofs.Draft.Labels

/-!
# Code with other labels

The code of a tree is determined by the tree but for its labels: when the same tree has code in two places,
with labels from different numbers on and with other entries for the functions that it calls, the one is the
other with its labels replaced (`FunctionCode.relabel`).

The induction goes over the tree and over both relations between the tree and code at once. The labels that
a rule takes have the same distance from the first one on both sides (`Moves`), so one replacement does for
the parts of a tree as well.
-/

namespace GridStack

/-- An operand with its label replaced. -/
def Operand.relabel (ρ : Label → Label) : Operand → Operand
  | imm value => imm value
  | label target => label (ρ target)

/-- An instruction with its labels replaced. -/
def Instr.relabel (ρ : Label → Label) (i : Instr) : Instr where
  op := i.op
  a := i.a.map (Operand.relabel ρ)
  b := i.b.map (Operand.relabel ρ)
  mark := i.mark.map ρ

namespace Code

/-- Code with its labels replaced. -/
def relabel (ρ : Label → Label) (code : List Instr) : List Instr :=
  code.map (Instr.relabel ρ)

variable {ρ : Label → Label} {front back code : List Instr}

/-- Where there is no code nothing is renamed. -/
@[simp] theorem relabel_nil : relabel ρ [] = [] := rfl

/-- Replacing labels in two pieces of code. -/
@[simp] theorem relabel_append : relabel ρ (front ++ back) = relabel ρ front ++ relabel ρ back :=
  List.map_append

/-- An operand without a label stays as it is. -/
theorem relabel_operand {x : Option Operand} (h : Operand.target? x = none) :
    x.map (Operand.relabel ρ) = x := by
  match x with
  | none => rfl
  | some (.imm value) => rfl
  | some (.label target) => contradiction

/-- An instruction without labels stays as it is. -/
theorem relabel_bare {i : Instr} (unmarked : i.mark = none) (unnamed : i.targets = []) :
    i.relabel ρ = i := by
  have none := List.filterMap_eq_nil_iff.1 unnamed
  have first : i.a.map (Operand.relabel ρ) = i.a := relabel_operand (none i.a List.mem_cons_self)
  have second : i.b.map (Operand.relabel ρ) = i.b :=
    relabel_operand (none i.b (List.mem_cons_of_mem _ List.mem_cons_self))
  rw [Instr.relabel, first, second, unmarked, Option.map_none, ← unmarked]

/-- Code without labels stays as it is. -/
theorem Bare.relabel_eq (h : Bare code) : relabel ρ code = code :=
  (List.map_congr_left fun i mem => relabel_bare (h i mem).1 (h i mem).2).trans (List.map_id code)

/-- A jump to a label. -/
@[simp] theorem relabel_jump (target : Label) :
    relabel ρ (jump (.label target)) = jump (.label (ρ target)) := rfl

/-- A conditional jump. -/
@[simp] theorem relabel_jumpIfZero (target : Label) :
    relabel ρ (jumpIfZero target) = jumpIfZero (ρ target) := rfl

/-- A marker. -/
@[simp] theorem relabel_marker (label : Label) :
    relabel ρ (.marker label :: code) = .marker (ρ label) :: relabel ρ code := rfl

/-- An instruction with a number. -/
@[simp] theorem relabel_imm (op : Opcode) (n : Int32) :
    relabel ρ (.imm op n :: code) = .imm op n :: relabel ρ code := rfl

/-- An instruction without operands. -/
@[simp] theorem relabel_plain (op : Opcode) :
    relabel ρ (.plain op :: code) = .plain op :: relabel ρ code := rfl

/-- The code of a call in front of the arguments. -/
@[simp] theorem relabel_save (site : Site) (resume : Label) :
    relabel ρ (save site resume) = save site (ρ resume) := by
  rw [save, relabel_append, (bare_map_imm _ _).relabel_eq]
  rfl

/-- The code of a call behind the arguments. -/
@[simp] theorem relabel_enter (offset : Int) (entry : Label) :
    relabel ρ (enter offset entry) = enter offset (ρ entry) := rfl

/-- The code of a call behind the callee. -/
@[simp] theorem relabel_restore (site : Site) : relabel ρ (restore site) = restore site :=
  (bare_map_imm _ _).relabel_eq

/-- Whether an instruction that is appended is fused does not depend on labels. -/
theorem append_relabel (fuse : Bool) (i : Instr) :
    Draft.append fuse (i.relabel ρ) (relabel ρ code) = relabel ρ (Draft.append fuse i code) := by
  have number : ∀ j : Instr, (j.relabel ρ).imm? = j.imm? := by
    rintro ⟨op, _ | _ | _, b, mark⟩ <;> rfl
  cases code with
  | nil => rfl
  | cons last before =>
    by_cases fused : fuse = true ∧ i.op = .pop ∧ last.op = .push
    · have fused' : fuse = true ∧ (i.relabel ρ).op = .pop ∧ (last.relabel ρ).op = .push := fused
      rw [relabel, List.map_cons, Draft.append, if_pos fused', number, number, Draft.append, if_pos fused]
      split
      · split <;> rfl
      · rfl
    · have fused' : ¬(fuse = true ∧ (i.relabel ρ).op = .pop ∧ (last.relabel ρ).op = .push) := fused
      rw [relabel, List.map_cons, Draft.append, if_neg fused', Draft.append, if_neg fused]
      rfl

/-- Moving a word into a register. -/
theorem store_relabel (fuse : Bool) (r : Int32) :
    store fuse (relabel ρ code) r = relabel ρ (store fuse code r) := by
  have reverse : ∀ code, (relabel ρ code).reverse = relabel ρ code.reverse :=
    fun code => List.map_reverse.symm
  calc store fuse (relabel ρ code) r
    _ = (Draft.append fuse (.imm .pop r) (relabel ρ code.reverse)).reverse := by rw [store, reverse]
    _ = (relabel ρ (Draft.append fuse (.imm .pop r) code.reverse)).reverse := by
      rw [← append_relabel]
      rfl
    _ = relabel ρ (store fuse code r) := reverse _

end Code

/-- Labels from one number on become those from another one on. -/
def Moves (ρ : Label → Label) (next next' : Nat) : Prop :=
  ∀ k, ρ ⟨next + k⟩ = ⟨next' + k⟩

namespace Moves

variable {ρ : Label → Label} {next next' : Nat}

/-- The first label. -/
theorem here (h : Moves ρ next next') : ρ ⟨next⟩ = ⟨next'⟩ :=
  h 0

/-- The labels further on. -/
theorem add (h : Moves ρ next next') (n : Nat) : Moves ρ (next + n) (next' + n) := by
  intro k
  rw [Nat.add_assoc, h, Nat.add_assoc]

end Moves

/-- The same function with other labels for its end and for the entries of functions. -/
def Site.moved (site : Site) (table : FunctionTable) (exit : Label) : Site :=
  { site with table, exit }

/-- What a replacement of labels does with those that the code of a function does not take for its parts. -/
structure Relabels (ρ : Label → Label) (site : Site) (table : FunctionTable) (exit : Label) : Prop where
  exit_eq : ρ site.exit = exit
  entry_eq : ∀ {name callee callee'}, site.table.find? name = some callee →
    table.find? name = some callee' → ρ callee.entry = callee'.entry

/-- The code of a call, around that of the arguments. -/
theorem Moves.call {ρ : Label → Label} {next next' : Nat} (moves : Moves ρ next next') (site : Site)
    (block : List Instr) (offset : Int) (entry : Label) :
    Code.relabel ρ (Code.save site ⟨next⟩ ++ (block ++ (Code.enter offset entry ++
        ([.marker ⟨next⟩] ++ Code.restore site))))
      = Code.save site ⟨next'⟩ ++ (Code.relabel ρ block ++ (Code.enter offset (ρ entry) ++
        ([.marker ⟨next'⟩] ++ Code.restore site))) := by
  simp only [Code.relabel_append, Code.relabel_save, Code.relabel_enter, Code.relabel_marker,
    Code.relabel_nil, Code.relabel_restore, moves.here]

section Trees

variable {ρ : Label → Label} {site : Site} {table : FunctionTable} {exit : Label}

mutual

/-- The code of an expression with other labels. -/
theorem exprCode_relabel (h : Relabels ρ site table exit) {depth : Int} {next next' : Nat}
    {block block' : List Instr} (moves : Moves ρ next next') :
    (e : Expr) → ExprCode site depth next e block →
      ExprCode (site.moved table exit) depth next' e block' → block' = Code.relabel ρ block
  | .int _, .int fits, .int fits' => by
    cases Option.some.inj (fits.symm.trans fits')
    rfl
  | .var _, .var declared, .var declared' => by
    cases Option.some.inj (declared.symm.trans declared')
    rfl
  | .paren inner, .paren code, .paren code' => exprCode_relabel h moves inner code code'
  | .unary op operand, .unary code, .unary code' => by
    rw [exprCode_relabel h moves operand code code', Code.relabel_append, (Code.bare_unary op).relabel_eq]
  | .binary _ lhs rhs, .binary known left right, .binary known' left' right' => by
    cases Option.some.inj (known.symm.trans known')
    rw [exprCode_relabel h moves lhs left left', exprCode_relabel h (moves.add _) rhs right right',
      Code.relabel_append, Code.relabel_append, (Code.bare_binary known).relabel_eq]
  -- The machine has no `&&` and no `||`.
  | .binary _ _ _, .binary known _ _, .and _ _ => nomatch known
  | .binary _ _ _, .binary known _ _, .or _ _ => nomatch known
  | .binary _ _ _, .and _ _, .binary known _ _ => nomatch known
  | .binary _ _ _, .or _ _, .binary known _ _ => nomatch known
  | .binary _ lhs rhs, .and left right, .and left' right' => by
    rw [exprCode_relabel h (moves.add 2) lhs left left',
      exprCode_relabel h ((moves.add 2).add _) rhs right right']
    simp only [Code.relabel_append, Code.relabel_jumpIfZero, Code.relabel_jump, Code.relabel_marker,
      Code.relabel_imm, Code.relabel_nil, moves.here, moves 1]
  | .binary _ lhs rhs, .or left right, .or left' right' => by
    rw [exprCode_relabel h (moves.add 2) lhs left left',
      exprCode_relabel h ((moves.add 2).add _) rhs right right']
    simp only [Code.relabel_append, Code.relabel_jumpIfZero, Code.relabel_jump, Code.relabel_marker,
      Code.relabel_imm, Code.relabel_nil, moves.here, moves 1]
  | .call _ args _ _, .input arity values, .input arity' values' => by
    rw [exprsCode_relabel h moves args values values', Code.relabel_append]
    rfl
  -- A name is that of the input or that of a function.
  | .call _ _ _ _, .input _ _, .call user _ _ _ => absurd rfl user
  | .call _ _ _ _, .call user _ _ _, .input _ _ => absurd rfl user
  | .call _ args _ _, .call _ found _ (.mk _ values), .call _ found' _ (.mk _ values') => by
    rw [Code.relabel_append, moves.call, ← exprsCode_relabel h (moves.add 1) args values values',
      h.entry_eq found found']
    rfl
termination_by structural e => e

/-- The code of expressions with other labels. -/
theorem exprsCode_relabel (h : Relabels ρ site table exit) {depth : Int} {next next' : Nat}
    {block block' : List Instr} (moves : Moves ρ next next') :
    (es : List Expr) → ExprsCode site depth next es block →
      ExprsCode (site.moved table exit) depth next' es block' → block' = Code.relabel ρ block
  | [], .nil, .nil => rfl
  | e :: es, .cons head tail, .cons head' tail' => by
    rw [exprCode_relabel h moves e head head', exprsCode_relabel h (moves.add _) es tail tail',
      Code.relabel_append]
termination_by structural es => es

end

/-- The code that moves a value into a register, with other labels. -/
theorem storeCode_relabel (h : Relabels ρ site table exit) {depth : Int} {next next' : Nat} {e : Expr}
    {r : Int32} {block block' : List Instr} (moves : Moves ρ next next')
    (code : StoreCode site depth next e r block)
    (code' : StoreCode (site.moved table exit) depth next' e r block') : block' = Code.relabel ρ block := by
  obtain ⟨value⟩ := code
  obtain ⟨value'⟩ := code'
  rw [exprCode_relabel h moves e value value', Code.store_relabel]
  rfl

/-- The code of an expression that is a statement, with other labels. -/
theorem effectCode_relabel (h : Relabels ρ site table exit) {depth : Int} {next next' : Nat} {e : Expr}
    {block block' : List Instr} (moves : Moves ρ next next') (code : EffectCode site depth next e block)
    (code' : EffectCode (site.moved table exit) depth next' e block') : block' = Code.relabel ρ block := by
  cases code with
  | assign declared store =>
    cases code' with
    | assign declared' store' =>
      cases Option.some.inj (declared.symm.trans declared')
      exact storeCode_relabel h moves store store'
  | output abscissa ordinate store =>
    cases code' with
    | output abscissa' ordinate' store' =>
      rw [exprCode_relabel h moves _ abscissa abscissa',
        exprCode_relabel h (moves.add _) _ ordinate ordinate',
        storeCode_relabel h ((moves.add _).add _) store store']
      simp only [Code.relabel_append, Code.relabel_plain, Code.relabel_nil]
    | call user' _ _ => exact absurd rfl user'
  | call user found call =>
    cases code' with
    | output _ _ _ => exact absurd rfl user
    | call user' found' call' =>
      obtain ⟨-, values⟩ := call
      obtain ⟨-, values'⟩ := call'
      rw [moves.call, ← exprsCode_relabel h (moves.add 1) _ values values', h.entry_eq found found']
      rfl

mutual

/-- The code of a statement with other labels. -/
theorem stmtCode_relabel (h : Relabels ρ site table exit) {depth : Int} {next next' : Nat}
    {block block' : List Instr} (moves : Moves ρ next next') :
    (s : Stmt) → StmtCode site depth next s block →
      StmtCode (site.moved table exit) depth next' s block' → block' = Code.relabel ρ block
  | .block body, .block code, .block code' => stmtsCode_relabel h moves body code code'
  | .expr _, .expr code, .expr code' => effectCode_relabel h moves code code'
  | .declare _, .declare declared store, .declare declared' store' => by
    cases Option.some.inj (declared.symm.trans declared')
    exact storeCode_relabel h moves store store'
  | .branch cond yes no, .branch test arm other, .branch test' arm' other' => by
    rw [exprCode_relabel h (moves.add 1) cond test test',
      stmtCode_relabel h ((moves.add 1).add _) yes arm arm',
      alternativeCode_relabel h (((moves.add 1).add _).add _) moves.here no other other']
    simp only [Code.relabel_append, Code.relabel_jumpIfZero, moves.here]
  | .loop cond body, .loop test round, .loop test' round' => by
    rw [exprCode_relabel h (moves.add 2) cond test test',
      stmtCode_relabel h ((moves.add 2).add _) body round round']
    simp only [Code.relabel_append, Code.relabel_jumpIfZero, Code.relabel_jump, Code.relabel_marker,
      Code.relabel_nil, moves.here, moves 1]
  | .ret none, .leave, .leave => by
    rw [Code.relabel_jump, h.exit_eq]
    rfl
  | .ret (some _), .ret store, .ret store' => by
    rw [storeCode_relabel h moves store store', Code.relabel_append, Code.relabel_jump, h.exit_eq]
    rfl

/-- The code of statements with other labels. -/
theorem stmtsCode_relabel (h : Relabels ρ site table exit) {depth : Int} {next next' : Nat}
    {block block' : List Instr} (moves : Moves ρ next next') :
    (ss : List Stmt) → StmtsCode site depth next ss block →
      StmtsCode (site.moved table exit) depth next' ss block' → block' = Code.relabel ρ block
  | [], .nil, .nil => rfl
  | s :: rest, .cons head tail, .cons head' tail' => by
    rw [stmtCode_relabel h moves s head head', stmtsCode_relabel h (moves.add _) rest tail tail',
      Code.relabel_append]

/-- The code behind the first arm of a branch, with other labels. -/
theorem alternativeCode_relabel (h : Relabels ρ site table exit) {depth : Int} {next next' : Nat}
    {otherwise otherwise' : Label} {block block' : List Instr} (moves : Moves ρ next next')
    (same : ρ otherwise = otherwise') :
    (no : Option Stmt) → AlternativeCode site depth next otherwise no block →
      AlternativeCode (site.moved table exit) depth next' otherwise' no block' →
        block' = Code.relabel ρ block
  | none, .none, .none => by
    rw [← same]
    rfl
  | some no, .some arm, .some arm' => by
    rw [stmtCode_relabel h (moves.add 1) no arm arm']
    simp only [Code.relabel_append, Code.relabel_jump, Code.relabel_marker, Code.relabel_nil, moves.here,
      same]

end

/-- The code of a function with other labels. -/
theorem FunctionCode.relabel (h : Relabels ρ site table exit) {next next' : Nat} {entry entry' : Label}
    {block block' : List Instr} (moves : Moves ρ next next') (begins : ρ entry = entry')
    (code : FunctionCode site next entry block)
    (code' : FunctionCode (site.moved table exit) next' entry' block') : block' = Code.relabel ρ block := by
  obtain ⟨body⟩ := code
  obtain ⟨body'⟩ := code'
  have taken : Code.Bare (Code.take site) := Code.bare_map_imm _ _
  rw [stmtsCode_relabel h moves _ body body']
  simp only [Code.relabel_append, Code.relabel_marker, Code.relabel_nil, taken.relabel_eq,
    (Code.bare_leave site).relabel_eq, begins, h.exit_eq]
  rfl

end Trees

end GridStack
