import GridStack.Machine.Step

/-!
# The rules of the instructions

An instruction of the machine is put together of operations that can fail. Here the same is told as rules: for
each kind of instruction, what has to be there and which machine comes of it (`Machine.Executes`). An instruction
succeeds as the rules say and in no other way (`Machine.execute_eq_ok_iff`). When it fails it has a fault of its
own, and what it has taken off the stack by then is all that has changed (`Machine.execute_error`).

For each operation that can fail there is one law of what it ensures (`Operation.Ensures`), and for two of them one
behind the other. The rules follow from these, and this is the one place where operations are opened: what holds of
all instructions is shown by cases on the rules.
-/

namespace GridStack

namespace Opcode

/-- The function that an instruction puts in place of two operands, none when it does something else. -/
def binary? : Opcode → Option (Int64 → Int64 → Int64)
  | add => some fun x y => wrap (x + y)
  | mult => some fun x y => wrap (x * y)
  | and => some fun x y => x &&& y
  | or => some fun x y => x ||| y
  | xor => some fun x y => x ^^^ y
  | lshift => some shiftLeft
  | rshift => some shiftRight
  | equals => some fun x y => truth (x = y)
  | lessThan => some fun x y => truth (x < y)
  | _ => none

end Opcode

/-- A fault of an instruction, and not a limit of a run. -/
def Fault.Own : Fault → Prop
  | .stackUnderflow | .noRegister _ | .frameAddress _ | .marker => True
  | .stepLimit _ | .stackLimit => False

namespace Machine

/-- The machine with one more word on its stack. -/
def push (m : Machine) (value : Int64) : Machine :=
  { m with stack := m.stack.push value }

/-- The machine with a register changed. -/
def put (m : Machine) (place : Fin registerCount) (value : Int64) : Machine :=
  { m with registers := m.registers.set place value place.isLt }

/-- Of the registers one is changed. -/
@[simp] theorem registers_put (m : Machine) (place : Fin registerCount) (value : Int64) :
    (m.put place value).registers = m.registers.set place value place.isLt := rfl

/-- The place of the program counter. -/
theorem place?_pc : place? Register.pc = some ⟨0, by decide⟩ := rfl

/-- The place of the base register. -/
theorem place?_base : place? Register.base = some ⟨1, by decide⟩ := rfl

/-- The place of the scratch register. -/
theorem place?_scratch : place? Register.scratch = some ⟨2, by decide⟩ := rfl

/-- What an instruction makes of a machine. Operands are words on top of the stack or contents of registers, and
a missing operand counts as zero. -/
inductive Executes (m : Machine) : Instruction → Machine → Prop
  /-- A constant goes on the stack. -/
  | const (a b : Option Int32) : Executes m ⟨.const, a, b⟩ (m.push (a.getD 0).toInt64)
  /-- So does the content of a register. -/
  | push {a b : Option Int32} {value : Int64} (known : m.register? (a.getD 0) = some value) :
      Executes m ⟨.push, a, b⟩ (m.push value)
  /-- The top of the stack goes to a register. -/
  | pop {a b : Option Int32} {value : Int64} {rest : Stack} {place : Fin registerCount}
      (top : m.stack = rest.push value) (found : place? (a.getD 0) = some place) :
      Executes m ⟨.pop, a, b⟩ ({ m with stack := rest }.put place value)
  /-- The content of one register goes to another. -/
  | copy {a b : Option Int32} {value : Int64} {place : Fin registerCount}
      (known : m.register? (b.getD 0) = some value) (found : place? (a.getD 0) = some place) :
      Executes m ⟨.copy, a, b⟩ (m.put place value)
  /-- A word of the frame goes to a register. -/
  | load {a b : Option Int32} {offset : Int64} {place : Fin registerCount}
      (known : m.register? (b.getD 0) = some offset)
      (inside : 0 ≤ (m.base + offset).toInt ∧ (m.base + offset).toInt < m.stack.height)
      (found : place? (a.getD 0) = some place) :
      Executes m ⟨.load, a, b⟩ (m.put place ((m.stack.get? (m.base + offset).toInt.toNat).getD 0))
  /-- The content of a register goes to a word of the frame. -/
  | store {a b : Option Int32} {offset value : Int64} (known : m.register? (b.getD 0) = some offset)
      (inside : 0 ≤ (m.base + offset).toInt ∧ (m.base + offset).toInt < m.stack.height)
      (content : m.register? (a.getD 0) = some value) :
      Executes m ⟨.store, a, b⟩ { m with stack := m.stack.set (m.base + offset).toInt.toNat value }
  /-- On a zero a conditional jump goes to the address in its register. -/
  | jump {a b : Option Int32} {target : Int64} {rest : Stack} (top : m.stack = rest.push 0)
      (known : m.register? (a.getD 0) = some target) :
      Executes m ⟨.jumpIf, a, b⟩ ({ m with stack := rest }.setPc target)
  /-- On any other word it goes on, and its register need not be there. -/
  | pass {a b : Option Int32} {condition : Int64} {rest : Stack} (top : m.stack = rest.push condition)
      (other : condition ≠ 0) : Executes m ⟨.jumpIf, a, b⟩ { m with stack := rest }
  /-- A word is replaced by its complement. -/
  | not {a b : Option Int32} {x : Int64} {rest : Stack} (top : m.stack = rest.push x) :
      Executes m ⟨.not, a, b⟩ { m with stack := rest.push (wrap (~~~x)) }
  /-- A cell is read into the scratch register. -/
  | input {a b : Option Int32} {x y : Int64} {rest : Stack} (top : m.stack = (rest.push x).push y) :
      Executes m ⟨.input, a, b⟩ ({ m with stack := rest }.setScratch (m.grid.read x y))
  /-- The scratch register is written to a cell. -/
  | output {a b : Option Int32} {x y : Int64} {rest : Stack} (top : m.stack = (rest.push x).push y) :
      Executes m ⟨.output, a, b⟩ { m with stack := rest, log := ⟨x, y, m.scratch⟩ :: m.log }
  /-- Two words are replaced by a function of them. -/
  | binary {op : Opcode} {f : Int64 → Int64 → Int64} {a b : Option Int32} {x y : Int64} {rest : Stack}
      (known : op.binary? = some f) (top : m.stack = (rest.push x).push y) :
      Executes m ⟨op, a, b⟩ { m with stack := rest.push (f x y) }

/-- An instruction has failed: the fault is one of its own, and no more than the stack has changed. -/
structure Breaks (m : Machine) (fault : Fault) (stopped : Machine) : Prop where
  own : fault.Own
  only_stack : ∃ stack, stopped = { m with stack }

/-- The machine at which nothing has been done yet. -/
theorem Breaks.here {m : Machine} {fault : Fault} (own : fault.Own) : m.Breaks fault m :=
  ⟨own, m.stack, rfl⟩

end Machine

namespace Operation

/-- What is sure about an operation on a machine: the value and the machine that it gives are of one kind, and when
it fails, the fault and the machine are of another. -/
def Ensures {α : Type} (x : Operation α) (m : Machine) (done : α → Machine → Prop)
    (broken : Fault → Machine → Prop) : Prop :=
  match x m with
  | .ok a next => done a next
  | .error fault stopped => broken fault stopped

namespace Ensures

variable {α β : Type} {m : Machine} {broken : Fault → Machine → Prop}

/-- One operation behind another. -/
theorem bind {x : Operation α} {f : α → Operation β} {done : β → Machine → Prop}
    (h : Ensures x m (fun a next => Ensures (f a) next done broken) broken) :
    Ensures (x >>= f) m done broken := by
  show Ensures (EStateM.bind x f) m done broken
  unfold Ensures EStateM.bind at *
  cases first : x m with
  | ok a next =>
    rw [first] at h
    exact h
  | error fault stopped =>
    rw [first] at h
    exact h

/-- A pop takes the top of the stack, or there is none. -/
theorem pop {done : Int64 → Machine → Prop}
    (taken : ∀ value rest, m.stack = rest.push value → done value { m with stack := rest })
    (none_left : broken .stackUnderflow m) : Ensures Operation.pop m done broken := by
  unfold Ensures Operation.pop
  cases popped : m.stack.pop? with
  | none => exact none_left
  | some top => exact taken top.1 top.2 ((Stack.pop?_eq_some_iff _ _ _).1 popped)

/-- A read gives the content of a register, or there is no such register. -/
theorem read {r : Int32} {done : Int64 → Machine → Prop}
    (given : ∀ value, m.register? r = some value → done value m) (missing : broken (.noRegister r) m) :
    Ensures (Operation.read r) m done broken := by
  unfold Ensures Operation.read
  cases known : m.register? r with
  | none => exact missing
  | some value => exact given value known

/-- A write changes a register, or there is no such register. -/
theorem write {r : Int32} {value : Int64} {done : Unit → Machine → Prop}
    (written : ∀ place, Machine.place? r = some place → done () (m.put place value))
    (missing : broken (.noRegister r) m) : Ensures (Operation.write r value) m done broken := by
  unfold Ensures Operation.write Machine.setRegister?
  cases found : Machine.place? r with
  | none => exact missing
  | some place => exact written place found

/-- An address of a frame is a position of the stack, or it lies outside. -/
theorem frameAddress {r : Int32} {done : Nat → Machine → Prop}
    (given : ∀ offset, m.register? r = some offset →
      0 ≤ (m.base + offset).toInt ∧ (m.base + offset).toInt < m.stack.height →
        done (m.base + offset).toInt.toNat m)
    (missing : broken (.noRegister r) m) (outside : ∀ address, broken (.frameAddress address) m) :
    Ensures (Operation.frameAddress r) m done broken := by
  refine bind (read (fun offset known => ?_) missing)
  unfold Ensures
  dsimp only
  by_cases inside : 0 ≤ (m.base + offset).toInt ∧ (m.base + offset).toInt < m.stack.height
  · rw [if_pos inside]
    exact given offset known inside
  · rw [if_neg inside]
    exact outside _

/-- Two operands are taken off the stack, the right one first, or there are not as many. -/
theorem withOperands {use : Int64 → Int64 → Operation α} {done : α → Machine → Prop}
    (taken : ∀ x y rest, m.stack = (rest.push x).push y → Ensures (use x y) { m with stack := rest } done broken)
    (none_left : ∀ stack, broken .stackUnderflow { m with stack }) :
    Ensures (Operation.withOperands use) m done broken := by
  refine bind (pop (fun y between top => bind (pop (fun x rest below => ?_) (none_left _))) (none_left _))
  obtain rfl : between = rest.push x := below
  exact taken x y rest top

end Ensures

section Succeeds

variable {α β : Type} {m : Machine} {rest : Stack} {r : Int32}

/-- What is done behind an operation that succeeds. -/
theorem bind_of_ok {x : Operation α} {f : α → Operation β} {a : α} {between : Machine}
    (first : x m = .ok a between) : (x >>= f) m = f a between := by
  show EStateM.bind x f m = _
  unfold EStateM.bind
  rw [first]

/-- What is popped is the top of the stack. -/
theorem pop_of_top {value : Int64} (top : m.stack = rest.push value) :
    pop m = .ok value { m with stack := rest } := by
  unfold pop
  rw [top, Stack.pop?_push]

/-- What is read is the content of the register. -/
theorem read_of_known {value : Int64} (known : m.register? r = some value) : read r m = .ok value m := by
  unfold read
  rw [known]

/-- What is written stands in the register. -/
theorem write_of_place {value : Int64} {place : Fin registerCount} (found : Machine.place? r = some place) :
    write r value m = .ok () (m.put place value) := by
  unfold write Machine.setRegister?
  rw [found]
  rfl

/-- An address of the frame that lies on the stack is a position of it. -/
theorem frameAddress_of_inside {offset : Int64} (known : m.register? r = some offset)
    (inside : 0 ≤ (m.base + offset).toInt ∧ (m.base + offset).toInt < m.stack.height) :
    frameAddress r m = .ok (m.base + offset).toInt.toNat m := by
  refine (bind_of_ok (read_of_known known)).trans ?_
  dsimp only
  rw [if_pos inside]

/-- What takes two operands gets the two topmost words. -/
theorem withOperands_of_top {use : Int64 → Int64 → Operation α} {x y : Int64}
    (top : m.stack = (rest.push x).push y) : withOperands use m = use x y { m with stack := rest } :=
  (bind_of_ok (pop_of_top top)).trans (bind_of_ok (pop_of_top rfl))

end Succeeds

end Operation

namespace Machine

open Operation

variable {m next stopped : Machine} {instr : Instruction}

/-- An instruction that puts a function in place of two operands. -/
theorem execute_of_binary? {f : Int64 → Int64 → Int64} (h : instr.op.binary? = some f) :
    execute instr = Operation.binary f := by
  obtain ⟨op, a, b⟩ := instr
  cases op <;> cases h <;> rfl

/-- An instruction follows the rules or has a fault of its own. -/
theorem execute_ensures (instr : Instruction) (m : Machine) :
    Ensures (execute instr) m (fun _ next => m.Executes instr next) m.Breaks := by
  have underflow : ∀ stack, m.Breaks .stackUnderflow { m with stack } := fun stack => ⟨trivial, stack, rfl⟩
  obtain ⟨op, a, b⟩ := instr
  -- The operators are one case together, and what is left is done instruction by instruction.
  cases known : op.binary? with
  | some f =>
    rw [execute_of_binary? known]
    exact .withOperands (fun x y rest top => Executes.binary known top) underflow
  | none =>
    cases op with
    | noop => exact Breaks.here trivial
    | const => exact Executes.const a b
    | push => exact .bind (.read (fun value known => Executes.push known) (.here trivial))
    | pop =>
      refine .bind (.pop (fun value rest top => ?_) (.here trivial))
      exact .write (fun place found => .pop top found) ⟨trivial, rest, rfl⟩
    | copy =>
      refine .bind (.read (fun value known => ?_) (.here trivial))
      exact .write (fun place found => .copy known found) (.here trivial)
    | load =>
      refine .bind (.frameAddress (fun offset known inside => ?_) (.here trivial) fun _ => .here trivial)
      exact .bind (.write (fun place found => .load known inside found) (.here trivial))
    | store =>
      refine .bind (.frameAddress (fun offset known inside => ?_) (.here trivial) fun _ => .here trivial)
      exact .bind (.read (fun value content => Executes.store known inside content) (.here trivial))
    | jumpIf =>
      refine .bind (.pop (fun condition rest top => ?_) (.here trivial))
      by_cases zero : condition = 0
      · subst zero
        exact .bind (.read (fun target known => Executes.jump top known) ⟨trivial, rest, rfl⟩)
      · simp only [if_neg zero]
        exact Executes.pass top zero
    | not => exact .bind (.pop (fun x rest top => Executes.not top) (.here trivial))
    | input => exact .withOperands (fun x y rest top => Executes.input top) underflow
    | output => exact .withOperands (fun x y rest top => Executes.output top) underflow
    | add | mult | and | or | xor | lshift | rshift | equals | lessThan => contradiction

/-- What the rules say is what is done. -/
theorem Executes.execute_eq (h : m.Executes instr next) : execute instr m = .ok () next := by
  cases h with
  | const a b => rfl
  | push known => exact bind_of_ok (read_of_known known)
  | pop top found => exact (bind_of_ok (pop_of_top top)).trans (write_of_place found)
  | copy known found => exact (bind_of_ok (read_of_known known)).trans (write_of_place found)
  | load known inside found =>
    exact (bind_of_ok (frameAddress_of_inside known inside)).trans (write_of_place found)
  | store known inside content =>
    exact (bind_of_ok (frameAddress_of_inside known inside)).trans (bind_of_ok (read_of_known content))
  | jump top known => exact (bind_of_ok (pop_of_top top)).trans (bind_of_ok (read_of_known known))
  | pass top other =>
    refine (bind_of_ok (pop_of_top top)).trans ?_
    simp only [if_neg other]
    rfl
  | not top => exact bind_of_ok (pop_of_top top)
  | input top => exact withOperands_of_top top
  | output top => exact withOperands_of_top top
  | binary known top =>
    rw [execute_of_binary? known]
    exact withOperands_of_top top

/-- An instruction succeeds as the rules say. -/
theorem execute_eq_ok_iff : execute instr m = .ok () next ↔ m.Executes instr next := by
  refine ⟨fun succeeds => ?_, Executes.execute_eq⟩
  have ensured := execute_ensures instr m
  unfold Ensures at ensured
  rwa [succeeds] at ensured

/-- An instruction that fails has a fault of its own and has changed no more than the stack. -/
theorem execute_error {fault : Fault} (fails : execute instr m = .error fault stopped) : m.Breaks fault stopped := by
  have ensured := execute_ensures instr m
  unfold Ensures at ensured
  rwa [fails] at ensured

/-- A step follows the rules when the program counter has moved on. -/
theorem step_eq_ok_iff : step instr m = .ok () next ↔ (m.setPc (m.pc + 1)).Executes instr next :=
  execute_eq_ok_iff

/-- A step that fails has a fault of its own and has changed no more than the stack and the program counter. -/
theorem step_error {fault : Fault} (fails : step instr m = .error fault stopped) :
    (m.setPc (m.pc + 1)).Breaks fault stopped :=
  execute_error fails

end Machine

end GridStack
