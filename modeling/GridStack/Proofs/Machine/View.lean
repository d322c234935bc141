import GridStack.Proofs.Image.Placement
import GridStack.Proofs.Lowered
import GridStack.Proofs.Machine.Executes

/-!
# What instructions do to a view

A `View` is what one instruction can see of a machine beside its program counter: the base, the upper part
of the stack and the cells. `View.exec` says what a drafted instruction does to it, and `View.run` what a
block of instructions without jumps does. `Machine.Shows` ties a view to a machine whose stack goes on below
the part in view. As that part is arbitrary, nothing that is said through a view touches it.

What an instruction does to a machine is what it does to a view of it (`executes_of_exec`): a drafted
instruction has one of the forms that are in view, and each of them is one of the rules of the machine.
-/

namespace GridStack

/-- What an instruction sees of a machine: the base, the upper part of the stack with its top first, and
the other registers with the log. -/
structure View where
  base : Int64
  stack : List Int64
  cells : Cells

namespace View

/-- The index of the variable that a register can hold. -/
def index? (r : Int32) : Option Nat :=
  if 3 ≤ r.toInt ∧ r.toInt < 8 then some (r.toInt - 3).toNat else none

/-- The content of a register other than the program counter, if it is known. -/
def read (v : View) (r : Int32) : Option Int64 :=
  if r = Register.base then some v.base
  else if r = Register.scratch then v.cells.scratch
  else match index? r with
    | some index => v.cells.vars index
    | none => none

/-- The view with a register other than the program counter changed. -/
def write (v : View) (r : Int32) (value : Int64) : Option View :=
  if r = Register.base then some { v with base := value }
  else if r = Register.scratch then some { v with cells := { v.cells with scratch := some value } }
  else match index? r with
    | some index => some { v with cells := { v.cells with
        vars := fun i => if i = index then some value else v.cells.vars i } }
    | none => none

/-- The view with a value on the stack. -/
def push (v : View) (value : Int64) : View :=
  { v with stack := value :: v.stack }

/-- What a drafted instruction other than a jump does, when labels have addresses. -/
def exec (address : Label → Int32) (grid : Grid) (instr : Instr) (v : View) : Option View :=
  match instr.op, instr.a, instr.b, v.stack with
  | .noop, _, _, _ => some v
  | .const, some operand, _, _ => some (v.push (Layout.resolved address operand).toInt64)
  | .push, some (.imm r), _, _ => (v.read r).map v.push
  | .pop, some (.imm r), _, x :: rest => { v with stack := rest }.write r x
  | .copy, some (.imm dest), some (.imm source), _ => (v.read source).bind (v.write dest)
  | .not, _, _, x :: rest => some { v with stack := wrap (~~~x) :: rest }
  | .input, _, _, y :: x :: rest =>
    some { v with stack := rest, cells := { v.cells with scratch := some (grid.read x y) } }
  | .output, _, _, y :: x :: rest => v.cells.scratch.map fun value =>
    { v with stack := rest, cells := { v.cells with log := ⟨x, y, value⟩ :: v.cells.log } }
  | op, _, _, y :: x :: rest => op.binary?.map fun f => { v with stack := f x y :: rest }
  | _, _, _, _ => none

/-- What a block of instructions without jumps does. -/
def run (address : Label → Int32) (grid : Grid) : List Instr → View → Option View
  | [], v => some v
  | instr :: block, v => (v.exec address grid instr).bind (run address grid block)

/-- The base register is always in view. -/
@[simp] theorem read_base (v : View) : v.read Register.base = some v.base := rfl

/-- The scratch register is read off the cells. -/
@[simp] theorem read_scratch (v : View) : v.read Register.scratch = v.cells.scratch := rfl

/-- The base register is changed by itself. -/
@[simp] theorem write_base (v : View) (x : Int64) :
    v.write Register.base x = some { v with base := x } := rfl

/-- The scratch register is changed with the cells. -/
@[simp] theorem write_scratch (v : View) (x : Int64) :
    v.write Register.scratch x = some { v with cells := { v.cells with scratch := some x } } := rfl

/-- The registers of the first five variables are those behind the base and the scratch register. -/
theorem index?_ofVar {i : Nat} (h : i < 5) :
    index? (Register.ofVar i) = some i ∧ Register.ofVar i ≠ Register.base ∧
      Register.ofVar i ≠ Register.scratch := by
  -- There are as few of them that each can be looked at.
  have cases : i = 0 ∨ i = 1 ∨ i = 2 ∨ i = 3 ∨ i = 4 := by omega
  rcases cases with rfl | rfl | rfl | rfl | rfl <;> decide

/-- The register of a variable is read at the index of the variable. -/
theorem read_ofVar (v : View) {i : Nat} (h : i < 5) : v.read (Register.ofVar i) = v.cells.vars i := by
  obtain ⟨index, not_base, not_scratch⟩ := index?_ofVar h
  rw [read, if_neg not_base, if_neg not_scratch, index]

/-- The register of a variable is written at the index of the variable. -/
theorem write_ofVar (v : View) {i : Nat} (h : i < 5) (x : Int64) :
    v.write (Register.ofVar i) x = some { v with cells := { v.cells with
      vars := fun j => if j = i then some x else v.cells.vars j } } := by
  obtain ⟨index, not_base, not_scratch⟩ := index?_ofVar h
  rw [write, if_neg not_base, if_neg not_scratch, index]

/-- One block behind another. -/
theorem run_append {address : Label → Int32} {grid : Grid} {v v' : View} {front : List Instr}
    (h : v.run address grid front = some v') (back : List Instr) :
    v.run address grid (front ++ back) = v'.run address grid back := by
  induction front generalizing v with
  | nil => cases h; rfl
  | cons instr front ih =>
    obtain ⟨between, exec, run⟩ := Option.bind_eq_some_iff.1 h
    rw [List.cons_append, View.run, exec, Option.bind_some, ih run]

end View

namespace Machine

open Layout (resolve resolved)

/-- A machine at a given address that shows a view, with the rest of the stack below it. -/
structure Shows (m : Machine) (grid : Grid) (pc : Int64) (floor : List Int64) (v : View) : Prop where
  pc_eq : m.pc = pc
  base_eq : m.base = v.base
  stack_eq : m.stack.values = v.stack ++ floor
  vars_eq : ∀ (i : Nat) (h : i < 5),
    v.cells.vars i = some m.registers[(⟨i + 3, by unfold registerCount; omega⟩ : Fin registerCount)]
  scratch_eq : v.cells.scratch = some m.scratch
  log_eq : m.log = v.cells.log
  grid_eq : m.grid = grid

variable {m : Machine} {grid : Grid} {pc : Int64} {floor : List Int64} {v v' : View}

/-- The place of a variable's register. -/
theorem place?_of_index? {r : Int32} {i : Nat} (h : View.index? r = some i) :
    ∃ hi : i < 5, place? r = some ⟨i + 3, by unfold registerCount; omega⟩ := by
  unfold View.index? at h
  split at h
  · next hr =>
    cases h
    refine ⟨by omega, ?_⟩
    unfold place?
    rw [dif_pos ⟨by omega, by unfold registerCount; omega⟩]
    congr 2
    omega
  · contradiction

/-- A register in view has the content that the view shows. -/
theorem Shows.register? (h : m.Shows grid pc floor v) {r : Int32} {x : Int64} (hr : v.read r = some x) :
    m.register? r = some x := by
  unfold View.read at hr
  split at hr
  · next eq =>
    subst eq
    rw [← Option.some.inj hr, ← h.base_eq]
    rfl
  · split at hr
    · next eq =>
      subst eq
      rw [← hr, h.scratch_eq]
      rfl
    · split at hr
      · next i hi =>
        obtain ⟨lt, place⟩ := place?_of_index? hi
        unfold Machine.register?
        rw [place, ← hr, h.vars_eq i lt]
      · contradiction

/-- A register in view can be changed. -/
theorem Shows.put (h : m.Shows grid pc floor v) {r : Int32} {x : Int64} (hw : v.write r x = some v') :
    ∃ place, place? r = some place ∧ (m.put place x).Shows grid pc floor v' := by
  obtain ⟨hpc, hbase, hstack, hvars, hscratch, hlog, hgrid⟩ := h
  unfold Machine.pc at hpc
  unfold Machine.base at hbase
  unfold Machine.scratch at hscratch
  unfold View.write at hw
  -- The registers have different places: what is not written stays as it was.
  split at hw
  · next eq =>
    subst eq
    cases hw
    refine ⟨_, place?_base, ?_, ?_, hstack, ?_, ?_, hlog, hgrid⟩
    · simp [Machine.pc, hpc]
    · simp [Machine.base]
    · intro i hi
      simp [hvars i hi]
    · simp [Machine.scratch, hscratch]
  · split at hw
    · next eq =>
      subst eq
      cases hw
      refine ⟨_, place?_scratch, ?_, ?_, hstack, ?_, ?_, hlog, hgrid⟩
      · simp [Machine.pc, hpc]
      · simp [Machine.base, hbase]
      · intro i hi
        simp [hvars i hi]
      · simp [Machine.scratch]
    · split at hw
      · next i hi =>
        cases hw
        obtain ⟨lt, place⟩ := place?_of_index? hi
        refine ⟨_, place, ?_, ?_, hstack, ?_, ?_, hlog, hgrid⟩
        · simp [Machine.pc, hpc]
        · simp [Machine.base, hbase]
        · intro j hj
          by_cases eq : j = i
          · simp [eq]
          · simp [eq, hvars j hj, show ¬ i = j by omega]
        · simp [Machine.scratch, hscratch]
      · contradiction

/-- The program counter is no part of a view. -/
theorem Shows.setPc (h : m.Shows grid pc floor v) (address : Int64) (steps : Nat) :
    ({ m with steps := steps }.setPc address).Shows grid address floor v := by
  obtain ⟨hpc, hbase, hstack, hvars, hscratch, hlog, hgrid⟩ := h
  unfold Machine.base at hbase
  unfold Machine.scratch at hscratch
  refine ⟨?_, ?_, hstack, ?_, ?_, hlog, hgrid⟩
  · simp [Machine.setPc, Machine.pc]
  · simp [Machine.setPc, Machine.base, hbase]
  · intro i hi
    simp [Machine.setPc, hvars i hi]
  · simp [Machine.setPc, Machine.scratch, hscratch]

/-- A value that is pushed is on top. -/
theorem Shows.push (h : m.Shows grid pc floor v) (x : Int64) :
    (m.push x).Shows grid pc floor (v.push x) := by
  refine ⟨h.pc_eq, h.base_eq, ?_, h.vars_eq, h.scratch_eq, h.log_eq, h.grid_eq⟩
  show (m.stack.push x).values = _
  rw [Stack.values_push, h.stack_eq]
  rfl

/-- The top of the stack in view can be popped. -/
theorem Shows.pop (h : m.Shows grid pc floor v) {x : Int64} {rest : List Int64} (top : v.stack = x :: rest) :
    ∃ stack : Stack, m.stack = stack.push x ∧ { m with stack }.Shows grid pc floor { v with stack := rest } := by
  have values := h.stack_eq
  rw [top, List.cons_append] at values
  exact ⟨⟨rest ++ floor, (rest ++ floor).length, rfl⟩, Stack.ext_values values, h.pc_eq, h.base_eq, rfl, h.vars_eq,
    h.scratch_eq, h.log_eq, h.grid_eq⟩

/-- Two operands in view can be popped. -/
theorem Shows.pop_two (h : m.Shows grid pc floor v) {x y : Int64} {rest : List Int64}
    (top : v.stack = y :: x :: rest) :
    ∃ stack : Stack, m.stack = (stack.push x).push y ∧
      { m with stack }.Shows grid pc floor { v with stack := rest } := by
  obtain ⟨between, first, shows⟩ := h.pop top
  obtain ⟨stack, second, shows⟩ := shows.pop rfl
  obtain rfl : between = stack.push x := second
  exact ⟨stack, first, shows⟩

/-- What an instruction does to a machine is what it does to a view of it. -/
theorem executes_of_exec {address : Label → Int32} {instr : Instr} (h : m.Shows grid pc floor v)
    (kept : instr.isMarker = false) (hv : v.exec address grid instr = some v') :
    ∃ m', m.Executes (resolve address instr) m' ∧ m'.Shows grid pc floor v' := by
  obtain ⟨op, a, b, mark⟩ := instr
  unfold View.exec at hv
  dsimp only at hv
  -- One case for each form that an instruction in view can have.
  split at hv
  case h_1 => contradiction
  case h_2 =>
    cases hv
    exact ⟨_, .const _ _, h.push _⟩
  case h_3 =>
    obtain ⟨x, hr, rfl⟩ := Option.map_eq_some_iff.1 hv
    exact ⟨_, .push (h.register? hr), h.push x⟩
  case h_4 top =>
    obtain ⟨stack, popped, shows⟩ := h.pop top
    obtain ⟨place, found, shows⟩ := shows.put hv
    exact ⟨_, .pop popped found, shows⟩
  case h_5 =>
    obtain ⟨x, hr, hw⟩ := Option.bind_eq_some_iff.1 hv
    obtain ⟨place, found, shows⟩ := h.put hw
    exact ⟨_, .copy (h.register? hr) found, shows⟩
  case h_6 top =>
    cases hv
    obtain ⟨stack, popped, shows⟩ := h.pop top
    exact ⟨_, .not popped, shows.push _⟩
  case h_7 y x rest top =>
    cases hv
    obtain rfl := h.grid_eq
    obtain ⟨stack, popped, shows⟩ := h.pop_two top
    obtain ⟨place, found, shows⟩ := shows.put (View.write_scratch _ (m.grid.read x y))
    cases found
    exact ⟨_, .input popped, shows⟩
  case h_8 y x rest top =>
    obtain ⟨value, known, rfl⟩ := Option.map_eq_some_iff.1 hv
    obtain ⟨stack, popped, shows⟩ := h.pop_two top
    -- The value that is written is the one that the machine has in the scratch register.
    obtain rfl : m.scratch = value := Option.some.inj (h.scratch_eq.symm.trans known)
    exact ⟨_, .output popped, shows.pc_eq, shows.base_eq, shows.stack_eq, shows.vars_eq, shows.scratch_eq,
      congrArg (⟨x, y, m.scratch⟩ :: ·) shows.log_eq, shows.grid_eq⟩
  case h_9 top =>
    -- The operators that put a function in place of two operands.
    obtain ⟨f, known, rfl⟩ := Option.map_eq_some_iff.1 hv
    obtain ⟨stack, popped, shows⟩ := h.pop_two top
    exact ⟨_, .binary known popped, shows.push _⟩
  case h_10 => contradiction

/-- A machine that has not run, over a grid. -/
def loaded (grid : Grid) : Machine :=
  { fresh with grid := grid }

/-- A machine that has not run shows registers that hold zero. -/
theorem loaded_shows (grid : Grid) : (loaded grid).Shows grid 0 [] ⟨0, [], .initial⟩ := by
  refine ⟨rfl, rfl, rfl, fun i hi => ?_, rfl, rfl, rfl⟩
  simp [loaded, fresh, Cells.initial]

/-- The floor of a view is the lower part of the stack. -/
theorem Shows.floor_suffix (h : m.Shows grid pc floor v) : floor <:+ m.stack.values :=
  ⟨v.stack, h.stack_eq.symm⟩

/-- The view can end at another height. -/
theorem Shows.reframe (h : m.Shows grid pc floor v) {stack floor' : List Int64}
    (eq : v.stack ++ floor = stack ++ floor') : m.Shows grid pc floor' { v with stack := stack } :=
  ⟨h.pc_eq, h.base_eq, h.stack_eq.trans eq, h.vars_eq, h.scratch_eq, h.log_eq, h.grid_eq⟩

end Machine

end GridStack
