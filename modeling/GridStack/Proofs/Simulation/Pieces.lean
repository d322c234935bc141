import GridStack.Proofs.Draft.Stored
import GridStack.Proofs.Machine.Realize

/-!
# What the pieces of code do

How many instructions the pieces have, and the blocks without jumps that generation puts together, run on
a view: the code of operators, the pushes and pops of several variables, and the move that is left of a
push behind which stood a pop. Several variables are given by their indices and a function from indices
to contents.
-/

namespace GridStack

namespace Code

open Layout (room)

/-- A jump has two instructions. -/
theorem room_jump (target : Operand) : room (jump target) = 2 :=
  rfl

/-- A conditional jump has three instructions. -/
theorem room_jumpIfZero (target : Label) : room (jumpIfZero target) = 3 :=
  rfl

/-- The way from the arguments to a callee has six instructions. -/
theorem room_enter (offset : Int) (entry : Label) : room (enter offset entry) = 6 :=
  rfl

/-- The code that takes the arguments has an instruction for each of them. -/
theorem room_take (site : Site) : room (take site) = site.function.params := by
  unfold take room
  rw [List.countP_eq_length.2]
  · simp
  · intro instr mem
    obtain ⟨r, -, rfl⟩ := List.mem_map.1 mem
    rfl

/-- The end of a function has two instructions. -/
theorem room_leave (site : Site) : room (leave site) = 2 := by
  unfold leave
  split <;> rfl

end Code

/-- The code of a function has some room. -/
theorem FunctionCode.some_room {site : Site} {next : Nat} {entry : Label} {block : List Instr}
    (h : FunctionCode site next entry block) : 0 < Layout.room block := by
  obtain ⟨body⟩ := h
  simp only [Layout.room_append, Code.room_leave]
  omega

variable {address : Label → Int32} {grid : Grid}

/-- The code of an operator in front of one operand. -/
theorem run_unary (op : UnaryOp) (base x : Int64) (stack : List Int64) (cells : Cells) :
    View.run address grid (Code.unary op) ⟨base, x :: stack, cells⟩
      = some ⟨base, op.lowered x :: stack, cells⟩ := by
  cases op <;> rfl

/-- The code of an operator between two operands. -/
theorem run_binary (address : Label → Int32) (grid : Grid) {op : BinaryOp} {tail : List Instr}
    (h : Code.binary? op = some tail) :
    ∃ f, op.lowered? = some f ∧ ∀ (base x y : Int64) (stack : List Int64) (cells : Cells),
      View.run address grid tail ⟨base, y :: x :: stack, cells⟩ = some ⟨base, f x y :: stack, cells⟩ := by
  cases op <;> cases h <;> exact ⟨_, rfl, fun _ _ _ _ _ => rfl⟩

/-- No more variables than are allowed, and each has one of the five registers. -/
theorem index_lt_five {count i : Nat} (few : count ≤ maxVariables) (h : i < count) : i < 5 :=
  Nat.lt_of_lt_of_le h few

/-- The cells with contents given to variables. -/
def Cells.assign (cells : Cells) (indices : List Nat) (values : Nat → Int64) : Cells :=
  { cells with vars := fun i => if i ∈ indices then some (values i) else cells.vars i }

/-- A single variable. -/
theorem Cells.assign_singleton (cells : Cells) (i : Nat) (values : Nat → Int64) :
    cells.assign [i] values
      = { cells with vars := fun j => if j = i then some (values i) else cells.vars j } := by
  unfold Cells.assign
  congr 1
  funext j
  by_cases eq : j = i <;> simp [eq]

/-- Known registers of variables have contents. -/
theorem Cells.Known.values {cells : Cells} (h : cells.Known) :
    ∃ values : Nat → Int64, ∀ i < 5, cells.vars i = some (values i) := by
  refine ⟨fun i => (cells.vars i).getD 0, fun i hi => ?_⟩
  obtain ⟨x, eq⟩ := h.1 i hi
  dsimp only
  rw [eq, Option.getD_some]

section Variables

variable {indices : List Nat} {values : Nat → Int64}

/-- Variables that are pushed lie on the stack, the last one on top. -/
theorem run_pushes (low : ∀ i ∈ indices, i < 5) {cells : Cells}
    (known : ∀ i < 5, cells.vars i = some (values i)) (base : Int64) (stack : List Int64) :
    View.run address grid ((indices.map Register.ofVar).map (.imm .push)) ⟨base, stack, cells⟩
      = some ⟨base, (indices.map values).reverse ++ stack, cells⟩ := by
  induction indices generalizing stack with
  | nil => rfl
  | cons i indices ih =>
    have here : i < 5 := low i List.mem_cons_self
    have read : View.read ⟨base, stack, cells⟩ (Register.ofVar i) = some (values i) :=
      (View.read_ofVar _ here).trans (known i here)
    have pushed : View.exec address grid (.imm .push (Register.ofVar i)) ⟨base, stack, cells⟩
        = some ⟨base, values i :: stack, cells⟩ := by
      show Option.map _ (View.read _ _) = _
      rw [read]
      rfl
    rw [List.map_cons, List.map_cons, View.run, pushed, Option.bind_some,
      ih fun j mem => low j (List.mem_cons_of_mem i mem)]
    simp

/-- Variables get the contents that are popped into them. -/
theorem run_pops (low : ∀ i ∈ indices, i < 5) (base : Int64) (stack : List Int64) (cells : Cells) :
    View.run address grid ((indices.map Register.ofVar).map (.imm .pop))
        ⟨base, indices.map values ++ stack, cells⟩
      = some ⟨base, stack, cells.assign indices values⟩ := by
  induction indices generalizing cells with
  | nil => simp [View.run, Cells.assign]
  | cons i indices ih =>
    have popped : View.exec address grid (.imm .pop (Register.ofVar i))
        ⟨base, values i :: (indices.map values ++ stack), cells⟩
          = some ⟨base, indices.map values ++ stack, cells.assign [i] values⟩ := by
      rw [Cells.assign_singleton]
      exact View.write_ofVar _ (low i List.mem_cons_self) (values i)
    -- An index that comes twice gets the same content again.
    have together : (cells.assign [i] values).assign indices values
        = cells.assign (i :: indices) values := by
      unfold Cells.assign
      congr 1
      funext j
      by_cases eq : j = i <;> simp [eq]
    rw [List.map_cons, List.map_cons, List.map_cons, List.cons_append, View.run, popped,
      Option.bind_some, ih fun j mem => low j (List.mem_cons_of_mem i mem), together]

end Variables

/-- Writing what a register holds changes nothing. -/
theorem View.write_read {v : View} {r : Int32} {x : Int64} (h : v.read r = some x) :
    v.write r x = some v := by
  unfold View.read at h
  unfold View.write
  -- Both look at the register in the same order: the base, the scratch register, a variable.
  split at h
  · next eq =>
    rw [if_pos eq, ← Option.some.inj h]
  · next other =>
    rw [if_neg other]
    split at h
    · next eq => rw [if_pos eq, ← h]
    · next other =>
      rw [if_neg other]
      split at h
      · next i index =>
        have same : (fun j => if j = i then some x else v.cells.vars j) = v.cells.vars := by
          funext j
          by_cases eq : j = i <;> simp [eq, h]
        rw [same]
      · contradiction

/-- The move does what the push and the pop would have done. -/
theorem run_move {v v' : View} {dest source : Int32} {x : Int64} (hr : v.read source = some x)
    (hw : v.write dest x = some v') : View.run address grid (Code.move dest source) v = some v' := by
  unfold Code.move
  split
  · next eq =>
    rw [← eq] at hr
    rw [View.write_read hr] at hw
    rw [← hw]
    rfl
  · show Option.bind ((v.read source).bind (v.write dest)) some = some v'
    rw [hr, Option.bind_some, hw, Option.bind_some]

end GridStack
