import GridStack.Proofs.Draft.Code

/-!
# Values that are moved into registers

The value of an expression is moved into a register by a pop behind its code. With fusion a pop takes away a
push that stands at the end of this code, and whether one does is a matter of the form of the expression: a
variable, a cell of the grid and the result of a call are pushed from a register, and the code of the other
forms ends with something else (`ExprCode.solid_or_held`).

So there are two kinds of code that moves a value, whatever the option (`StoreCode.popped_or_moved`): the
code of the value with a pop behind it, and a move from the register that holds it.
-/

namespace GridStack

namespace Code

/-- Code that does not end with a push. -/
def Solid (code : List Instr) : Prop :=
  ∀ last ∈ code.getLast?, last.op ≠ .push

/-- Code behind which something stands that is no push. -/
theorem solid_append {front block : List Instr} (some_code : block ≠ []) (plain : ∀ i ∈ block, i.op ≠ .push) :
    Solid (front ++ block) := by
  intro last mem
  rw [List.getLast?_append, List.getLast?_eq_some_getLast some_code, Option.some_or] at mem
  rw [← Option.some.inj mem]
  exact plain _ (List.getLast_mem some_code)

/-- What is left of a push and the pop behind it. -/
def move (dest source : Int32) : List Instr :=
  if dest = source then [] else [.copy dest source]

/-- A pop behind a push is fused. -/
theorem store_push (block : List Instr) (dest source : Int32) :
    store true (block ++ [.imm .push source]) dest = block ++ move dest source := by
  unfold store move
  rw [List.reverse_append]
  show (if dest = source then block.reverse else .copy dest source :: block.reverse).reverse = _
  split
  · rw [List.reverse_reverse, List.append_nil]
  · rw [List.reverse_cons, List.reverse_reverse]

/-- A pop is appended as it is without fusion, and behind anything but a push. -/
theorem store_eq {fuse : Bool} {block : List Instr} (r : Int32)
    (h : fuse = false ∨ Solid block) :
    store fuse block r = block ++ [.imm .pop r] := by
  unfold store
  cases eq : block.reverse with
  | nil =>
    rw [List.reverse_eq_nil_iff.1 eq]
    rfl
  | cons last before =>
    -- What stands in front of the pop is the last instruction of the block, and no push.
    have plain : ¬ (fuse = true ∧ (Instr.imm .pop r).op = .pop ∧ last.op = .push) := by
      rintro ⟨on, -, push⟩
      rcases h with off | h
      · rw [on] at off
        contradiction
      · refine h last ?_ push
        rw [← List.head?_reverse, eq]
        rfl
    rw [Draft.append, if_neg plain, ← eq, List.reverse_cons, List.reverse_reverse]

end Code

variable (site : Site)

/-- The code of an expression whose value is held by a register, in front of the push of the register. -/
inductive HeldCode (depth : Int) (next : Nat) : Expr → List Instr → Int32 → Prop
  | var {name : String} {index : Nat} (declared : site.function.variableIndex? name = some index) :
      HeldCode depth next (.var name) [] (Register.ofVar index)
  | paren {e : Expr} {block : List Instr} {source : Int32} (inner : HeldCode depth next e block source) :
      HeldCode depth next (.paren e) block source
  | input {args : List Expr} {receiver : Option Expr} {typeArgs : List TypeName} {block : List Instr}
      (arity : args.length = 2) (values : ExprsCode site depth next args block) :
      HeldCode depth next (.call inputName args receiver typeArgs) (block ++ [.plain .input])
        Register.scratch
  | call {name : String} {args : List Expr} {receiver : Option Expr} {typeArgs : List TypeName}
      {callee : Callee} {block : List Instr} (user : name ≠ inputName)
      (found : site.table.find? name = some callee) (call : CallCode site depth next callee args block) :
      HeldCode depth next (.call name args receiver typeArgs) block Register.scratch

variable {site : Site}

/-- The code of an expression does not end with a push, or its value is held by the register that is pushed. -/
theorem ExprCode.solid_or_held (e : Expr) {depth : Int} {next : Nat} {block : List Instr}
    (code : ExprCode site depth next e block) : Code.Solid block ∨
      ∃ init source, block = init ++ [.imm .push source] ∧ HeldCode site depth next e init source := by
  cases e with
  | int n =>
    cases code
    exact .inl (by simp [Code.Solid, Instr.imm])
  | var name =>
    cases code with
    | var declared => exact .inr ⟨[], _, rfl, .var declared⟩
  | paren inner =>
    cases code with
    | paren code =>
      refine (solid_or_held inner code).imp_right ?_
      rintro ⟨init, source, split, push⟩
      exact ⟨init, source, split, .paren push⟩
  | unary op operand =>
    cases code
    refine .inl (Code.solid_append ?_ ?_) <;> cases op <;> simp [Code.unary, Instr.imm, Instr.plain]
  | binary op lhs rhs =>
    cases code with
    | binary known left right =>
      rw [← List.append_assoc]
      refine .inl (Code.solid_append ?_ ?_) <;> cases op <;> cases known <;> simp [Instr.imm, Instr.plain]
    | and left right =>
      -- The marker at the end is no push.
      simp only [← List.append_assoc]
      exact .inl (Code.solid_append (by simp) (by simp [Instr.imm, Instr.marker]))
    | or left right =>
      simp only [← List.append_assoc]
      exact .inl (Code.solid_append (by simp) (by simp [Instr.marker]))
  | assign op target value => contradiction
  | call name args receiver typeArgs =>
    cases code with
    | input arity values =>
      refine .inr ⟨_, Register.scratch, ?_, .input arity values⟩
      rw [List.append_assoc]
      rfl
    | call user found value code => exact .inr ⟨_, Register.scratch, rfl, .call user found code⟩

/-- The code that moves a value into a register pops it, or moves it from the register that holds it. -/
theorem StoreCode.popped_or_moved {depth : Int} {next : Nat} {e : Expr} {dest : Int32} {block : List Instr}
    (code : StoreCode site depth next e dest block) :
    (∃ value, block = value ++ [.imm .pop dest] ∧ ExprCode site depth next e value) ∨
      ∃ init source, block = init ++ Code.move dest source ∧ HeldCode site depth next e init source := by
  obtain @⟨value, code⟩ := code
  cases site.fuse with
  | false => exact .inl ⟨value, Code.store_eq dest (.inl rfl), code⟩
  | true =>
    rcases ExprCode.solid_or_held e code with solid | ⟨init, source, rfl, held⟩
    · exact .inl ⟨value, Code.store_eq dest (.inr solid), code⟩
    · exact .inr ⟨init, source, Code.store_push init dest source, held⟩

end GridStack
