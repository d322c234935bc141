import GridStack.Proofs.Draft.Emission

/-!
# Steps of generation that find their words

Generation counts the words that a function has on the stack. An instruction that would take more than
there is is refused; and the counter has 32 bits, so that it must not pass the largest number of these
either. `Afloat` says of a part of generation that every change leaves a count between zero and a limit.

How high the count goes is told from the tree: `Expr.peak` and `Stmt.peak` are the most words that code has
on the stack above those that are there in front of it. What makes an induction over a tree go through is
the count between its parts. A part that cannot fail is described with `Certain`, which has both, and is put
together by `Certain.bind` alone: here are jumps, operators, and the code around the arguments of a call,
for which the callee takes off what has been counted. Parts that look up names can fail, and are described
on top of these.
-/

namespace GridStack

/-- The most words that the code of an operator has on the stack, with its operand. -/
def UnaryOp.peak : UnaryOp → Nat
  | complement => 1
  | neg | not => 2

/-- The most words that the code of an operator has on the stack, with its two operands. Those that begin by
changing the right operand need a word for it, and the jumps of `&&` and `||` one for the address. -/
def BinaryOp.peak : BinaryOp → Nat
  | sub | le | gt => 3
  | and | or | bitOr | bitAnd | bitXor | shl | shr | ushr | add | mul | div | rem | eq | ne | lt | ge => 2

mutual

/-- The most words that the code of an expression has on the stack at once, in a function with so many
variables. In `||` the word of one arm is counted while code is generated for the other. -/
def Expr.peak (vars : Nat) : Expr → Nat
  | .int _ | .var _ => 1
  | .paren inner => inner.peak vars
  | .unary op operand => max (operand.peak vars) op.peak
  | .binary op lhs rhs =>
    max (lhs.peak vars) (max (rhs.peak vars + if op = .and then 0 else 1) op.peak)
  | .call name args _ _ =>
    if name = inputName then Expr.peakOfAll vars args
    else vars + frameWords + max (Expr.peakOfAll vars args) (args.length + 2)
  | .assign _ _ _ => 0

/-- The most words that the code of expressions has on the stack, of which each one leaves its value. -/
def Expr.peakOfAll (vars : Nat) : List Expr → Nat
  | [] => 0
  | e :: es => max (e.peak vars) (Expr.peakOfAll vars es + 1)

end

/-- The most words that the code of an expression has on the stack when it is a statement. -/
def Expr.effectPeak (vars : Nat) : Expr → Nat
  | .assign _ _ value => value.peak vars
  | .call name args receiver typeArgs =>
    if name = outputName then Expr.peakOfAll vars args else (Expr.call name args receiver typeArgs).peak vars
  | _ => 0

/-- The most words that the code of a local declaration has on the stack. -/
def VarDecl.peak (vars : Nat) (decl : VarDecl) : Nat :=
  match decl.declarators with
  | [⟨_, some init⟩] => init.peak vars
  | _ => 0

mutual

/-- The most words that the code of a statement has on the stack at once. A jump puts its target there. -/
def Stmt.peak (vars : Nat) : Stmt → Nat
  | .block body => Stmt.peakOfAll vars body
  | .expr value => value.effectPeak vars
  | .declare decl => decl.peak vars
  | .branch cond yes no =>
    max (max (cond.peak vars) 2) (max (yes.peak vars) (Stmt.alternativePeak vars no))
  | .loop cond body => max (max (cond.peak vars) 2) (body.peak vars)
  | .ret value => max (value.elim 0 (Expr.peak vars)) 1

/-- The most words that the code of statements has on the stack at once. -/
def Stmt.peakOfAll (vars : Nat) : List Stmt → Nat
  | [] => 0
  | s :: rest => max (s.peak vars) (Stmt.peakOfAll vars rest)

/-- The most words that the code behind the first arm of a branch has on the stack at once. -/
def Stmt.alternativePeak (vars : Nat) : Option Stmt → Nat
  | none => 0
  | some no => max (no.peak vars) 1

end

/-- The most words that a function has on the stack at once: its arguments, or what its body needs. -/
def CheckedFunction.peak (f : CheckedFunction) : Nat :=
  max f.params (Stmt.peakOfAll f.vars.length f.body)

/-- All values of expressions are on the stack at the end. -/
theorem Expr.length_le_peakOfAll (vars : Nat) (es : List Expr) : es.length ≤ Expr.peakOfAll vars es := by
  induction es with
  | nil => exact Nat.le_refl _
  | cons e es ih =>
    rw [Expr.peakOfAll, List.length_cons]
    omega

namespace Emit

/-- Generation from a draft in which every change of the count leaves it between zero and a limit. The
count is only ever changed by hand to take words off. -/
inductive Afloat (top : Int) : {α : Type} → Emit α → Draft → Prop
  | pure {α : Type} {d : Draft} (a : α) : Afloat top (pure a) d
  | fail {α : Type} {d : Draft} (e : CompileError) : Afloat top (fail e : Emit α) d
  | fresh {d : Draft} : Afloat top fresh d
  | depth {d : Draft} : Afloat top depth d
  | instr {site : Site} {i : Instr} {d : Draft} (low : 0 ≤ d.depth + i.op.stackEffect)
      (high : d.depth + i.op.stackEffect ≤ top) : Afloat top (instr site i) d
  | adjust {change : Int} {d : Draft} (less : change ≤ 0) (low : 0 ≤ d.depth + change)
      (high : d.depth + change ≤ top) : Afloat top (adjust change) d
  | bind {α β : Type} {x : Emit α} {f : α → Emit β} {d : Draft} (first : Afloat top x d)
      (next : ∀ a after, x d = .ok (a, after) → Afloat top (f a) after) : Afloat top (x >>= f) d

/-- Generation from a draft that is afloat and cannot fail, and ends with so many words on the stack. -/
structure Certain {α : Type} (top words : Int) (x : Emit α) (d : Draft) : Prop where
  afloat : Afloat top x d
  succeeds : ∃ a after, x d = .ok (a, after) ∧ after.depth = words

section Rules

variable {α β : Type} {top words words' : Int} {x : Emit α} {f : α → Emit β} {d : Draft} {site : Site}

/-- The count of words in another form. -/
theorem Certain.to (h : Certain top words x d) (eq : words = words') : Certain top words' x d :=
  eq ▸ h

/-- The count of words at the end. -/
theorem Certain.depth_eq (h : Certain top words x d) {a : α} {after : Draft} (ok : x d = .ok (a, after)) :
    after.depth = words := by
  obtain ⟨_, _, succeeds, depth⟩ := h.succeeds
  cases ok.symm.trans succeeds
  exact depth

/-- One part behind another. -/
theorem Certain.bind (h : Certain top words x d)
    (next : ∀ a after, after.depth = words → Certain top words' (f a) after) :
    Certain top words' (x >>= f) d where
  afloat := .bind h.afloat fun a after ok => (next a after (h.depth_eq ok)).afloat
  succeeds := by
    obtain ⟨a, after, first, depth⟩ := h.succeeds
    obtain ⟨b, last, second, depth'⟩ := (next a after depth).succeeds
    refine ⟨b, last, ?_, depth'⟩
    change Except.bind (x d) (fun r => f r.1 r.2) = _
    rw [first]
    exact second

/-- A part that begins by asking for the count, which stays as it is. -/
theorem Certain.asked {f : Int → Emit β} (h : Certain top words (f d.depth) d) :
    Certain top words (depth >>= f) d where
  afloat := .bind .depth fun
    | _, _, rfl => h.afloat
  succeeds := h.succeeds

/-- Nothing is done. -/
theorem pure_certain (a : α) : Certain top d.depth (pure a : Emit α) d :=
  ⟨.pure a, a, d, rfl, rfl⟩

/-- A label is taken. -/
theorem fresh_certain : Certain top d.depth fresh d :=
  ⟨.fresh, _, _, rfl, rfl⟩

/-- Words are taken off the count. -/
theorem adjust_certain {change : Int} (less : change ≤ 0) (low : 0 ≤ d.depth + change)
    (high : d.depth + change ≤ top) : Certain top (d.depth + change) (adjust change) d :=
  ⟨.adjust less low high, _, _, rfl, rfl⟩

/-- An instruction that finds the words it takes, and room for those it puts. -/
theorem instr_certain {i : Instr} (effect : Int) (eq : i.op.stackEffect = effect)
    (low : 0 ≤ d.depth + effect) (high : d.depth + effect ≤ top) :
    Certain top (d.depth + effect) (instr site i) d := by
  subst eq
  refine ⟨.instr low high, ?_⟩
  unfold instr
  exact ⟨(), _, if_neg (Int.not_lt.2 low), rfl⟩

end Rules

section Pieces

variable {top : Int} {site : Site} {d : Draft}

/-- A label that is placed changes nothing on the stack. -/
theorem mark_certain {label : Label} (low : 0 ≤ d.depth) (high : d.depth ≤ top) :
    Certain top d.depth (mark site label) d :=
  (instr_certain 0 rfl (by omega) (by omega)).to (by omega)

/-- A jump pushes its target and pops it into the program counter. -/
theorem jump_certain {target : Operand} (low : 0 ≤ d.depth) (high : d.depth + 1 ≤ top) :
    Certain top d.depth (jump site target) d :=
  (instr_certain 1 rfl (by omega) (by omega)).bind fun _ _ _ =>
    (instr_certain (-1) rfl (by omega) (by omega)).to (by omega)

/-- A conditional jump takes the condition. -/
theorem jumpIfZero_certain {target : Label} (low : 1 ≤ d.depth) (high : d.depth + 1 ≤ top) :
    Certain top (d.depth - 1) (jumpIfZero site target) d :=
  (instr_certain 1 rfl (by omega) (by omega)).bind fun _ _ _ =>
    (instr_certain (-1) rfl (by omega) (by omega)).bind fun _ _ _ =>
      (instr_certain (-1) rfl (by omega) (by omega)).to (by omega)

/-- Several pushes. -/
theorem pushes_certain {rs : List Int32} (low : 0 ≤ d.depth) (high : d.depth + rs.length ≤ top) :
    Certain top (d.depth + rs.length) (each site .push rs) d := by
  induction rs generalizing d with
  | nil => exact (pure_certain ()).to (Int.add_zero _).symm
  | cons r rs ih =>
    rw [List.length_cons] at high ⊢
    exact (instr_certain 1 rfl (by omega) (by omega)).bind fun _ _ _ =>
      (ih (by omega) (by omega)).to (by omega)

/-- Several pops. -/
theorem pops_certain {rs : List Int32} (low : rs.length ≤ d.depth) (high : d.depth ≤ top) :
    Certain top (d.depth - rs.length) (each site .pop rs) d := by
  induction rs generalizing d with
  | nil => exact (pure_certain ()).to (Int.sub_zero _).symm
  | cons r rs ih =>
    rw [List.length_cons] at low ⊢
    exact (instr_certain (-1) rfl (by omega) (by omega)).bind fun _ _ _ =>
      (ih (by omega) (by omega)).to (by omega)

/-- An operator that is composed of a constant and an operator between two operands. -/
theorem constant_certain {n : Int32} {op : Opcode} (effect : op.stackEffect = -1) (low : 1 ≤ d.depth)
    (high : d.depth + 1 ≤ top) : Certain top d.depth (do imm site .const n; plain site op) d :=
  (instr_certain 1 rfl (by omega) (by omega)).bind fun _ _ _ =>
    (instr_certain (-1) effect (by omega) (by omega)).to (by omega)

/-- An operator in front of an operand. -/
theorem unary_certain (op : UnaryOp) (low : 1 ≤ d.depth) (high : d.depth - 1 + op.peak ≤ top) :
    Certain top d.depth (unary site op) d := by
  cases op with
  | neg | not =>
    rw [UnaryOp.peak] at high
    exact constant_certain rfl low (by omega)
  | complement =>
    rw [UnaryOp.peak] at high
    exact (instr_certain 0 rfl (by omega) (by omega)).to (by omega)

/-- An operator between two operands, of which one word is left, if the machine has code for it. -/
theorem binary_certain {construct : Expr} {op : BinaryOp} (conjunction : op ≠ .and) (disjunction : op ≠ .or)
    (supported : op ≠ .div ∧ op ≠ .rem ∧ op ≠ .ushr) (low : 2 ≤ d.depth)
    (high : d.depth - 2 + op.peak ≤ top) :
    Certain top (d.depth - 1) (binary site construct op) d := by
  have one : ∀ {o : Opcode} {d : Draft}, o.stackEffect = -1 → 2 ≤ d.depth → d.depth - 1 ≤ top →
      Certain top (d.depth - 1) (plain site o) d := fun effect low high =>
    (instr_certain (-1) effect (by omega) (by omega)).to (by omega)
  cases op with
  | and | or | div | rem | ushr => simp at supported conjunction disjunction
  | bitOr | bitAnd | bitXor | shl | shr | add | mul | eq | lt =>
    rw [BinaryOp.peak] at high
    exact one rfl low (by omega)
  | sub | le =>
    rw [BinaryOp.peak] at high
    exact (constant_certain rfl (by omega) (by omega)).bind fun _ _ _ =>
      (one rfl (by omega) (by omega)).to (by omega)
  | ne | ge =>
    rw [BinaryOp.peak] at high
    exact (one rfl (by omega) (by omega)).bind fun _ _ _ =>
      (constant_certain rfl (by omega) (by omega)).to (by omega)
  | gt =>
    rw [BinaryOp.peak] at high
    exact (constant_certain rfl (by omega) (by omega)).bind fun _ _ _ =>
      (one rfl (by omega) (by omega)).bind fun _ _ _ =>
        (constant_certain rfl (by omega) (by omega)).to (by omega)

/-- The code in front of the arguments of a call puts the frame on the stack. -/
theorem callBegin_certain (low : 0 ≤ d.depth)
    (high : d.depth + site.function.vars.length + frameWords ≤ top) :
    Certain top (d.depth + site.function.vars.length + frameWords) (callBegin site) d := by
  have count : (window site).reverse.length = site.function.vars.length :=
    List.length_reverse.trans length_window
  have words : frameWords = 2 := rfl
  refine (pushes_certain low (by omega)).bind fun _ _ _ => fresh_certain.bind fun _ _ _ => ?_
  -- The address of the label to come back to, and the base.
  refine (instr_certain 1 rfl (by omega) (by omega)).bind fun _ _ _ => ?_
  refine (instr_certain 1 rfl (by omega) (by omega)).bind fun _ _ _ => ?_
  -- The offset of the first argument is the count.
  exact .asked ((pure_certain _).to (by omega))

/-- The code behind the arguments of a call takes them and the frame off the stack. To move the base it
needs two words more. -/
theorem callEnd_certain {f : Callee} {resume : Label} {offset : Int}
    (low : f.params + frameWords + site.function.vars.length ≤ d.depth) (high : d.depth + 2 ≤ top) :
    Certain top (d.depth - (f.params + frameWords + site.function.vars.length))
      (callEnd site f resume offset) d := by
  have count : (window site).length = site.function.vars.length := length_window
  have words : frameWords = 2 := rfl
  -- The base is moved by the offset.
  refine (instr_certain 1 rfl (by omega) (by omega)).bind fun _ _ _ => ?_
  refine (instr_certain 1 rfl (by omega) (by omega)).bind fun _ _ _ => ?_
  refine (instr_certain (-1) rfl (by omega) (by omega)).bind fun _ _ _ => ?_
  refine (instr_certain (-1) rfl (by omega) (by omega)).bind fun _ _ _ => ?_
  refine (jump_certain (by omega) (by omega)).bind fun _ _ _ => ?_
  refine (mark_certain (by omega) (by omega)).bind fun _ _ _ => ?_
  -- The callee takes the arguments and the frame, and the variables are popped behind it.
  exact (adjust_certain (by omega) (by omega) (by omega)).bind fun _ _ _ =>
    (pops_certain (by omega) (by omega)).to (by omega)

end Pieces

end Emit

end GridStack
