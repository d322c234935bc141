import GridStack.Proofs.Image.Placement
import GridStack.Proofs.Machine.Executes

/-!
# Machines that are alike

Two machines are alike when they differ in the program counter and the number of steps at most. An
instruction that goes on to the next one and has no business with the program counter cannot tell them
apart: on both it does the same, or faults (`step_alike`). So does a stretch of such instructions, from
wherever it is executed (`agree_self`).

By the rules an instruction does on one of the machines what it does on the other (`Machine.Executes.alike`), as
all that a rule asks for is there on both. So when it succeeds on one it succeeds on the other, and otherwise it
faults on both.
-/

namespace GridStack

/-- A register other than the program counter. -/
def Register.General (r : Int32) : Prop :=
  1 ≤ r.toInt ∧ r.toInt ≤ 7

/-- The operands of an instruction that are registers. -/
def Instr.registers (i : Instr) : List (Option Operand) :=
  match i.op with
  | .push | .pop | .jumpIf => [i.a]
  | .copy | .load | .store => [i.a, i.b]
  | _ => []

/-- An instruction that goes on to the next one: it is neither a marker nor a conditional jump, and its
registers are others than the program counter, so that it is no jump either. -/
structure Instr.Straight (i : Instr) : Prop where
  kept : i.isMarker = false
  onward : i.op ≠ .jumpIf
  free : ∀ x ∈ i.registers, ∃ r, x = some (.imm r) ∧ Register.General r

/-- The one register of an instruction that goes on to the next one. -/
theorem Instr.Straight.register {i : Instr} (straight : i.Straight) (eq : i.registers = [i.a]) :
    ∃ r, i.a = some (.imm r) ∧ Register.General r :=
  straight.free i.a (by rw [eq]; exact List.mem_cons_self)

/-- The two registers of an instruction that goes on to the next one. -/
theorem Instr.Straight.two_registers {i : Instr} (straight : i.Straight) (eq : i.registers = [i.a, i.b]) :
    ∃ r s, i.a = some (.imm r) ∧ i.b = some (.imm s) ∧ Register.General r ∧ Register.General s := by
  obtain ⟨r, first, free⟩ := straight.free i.a (by rw [eq]; exact List.mem_cons_self)
  obtain ⟨s, second, free'⟩ := straight.free i.b (by rw [eq]; exact List.mem_cons_of_mem _ List.mem_cons_self)
  exact ⟨r, s, first, second, free, free'⟩

namespace Machine

/-- Machines that differ in the program counter and the number of steps at most. -/
structure Alike (m m' : Machine) : Prop where
  register_eq : ∀ place : Fin registerCount, place.val ≠ 0 → m.registers.get place = m'.registers.get place
  stack_eq : m.stack = m'.stack
  grid_eq : m.grid = m'.grid
  log_eq : m.log = m'.log

/-- Both fault, or both come to the same result on machines that are alike. -/
inductive Meets {α : Type} : EStateM.Result Fault Machine α → EStateM.Result Fault Machine α → Prop
  | ok (a : α) {m m' : Machine} (alike : m.Alike m') : Meets (.ok a m) (.ok a m')
  | fault {fault fault' : Fault} {m m' : Machine} : Meets (.error fault m) (.error fault' m')

/-- Executes instructions one behind another, wherever the program counter points. -/
def through : List Instruction → Machine → EStateM.Result Fault Machine Unit
  | [], m => .ok () m
  | instr :: rest, m =>
    match step instr m with
    | .ok () next => through rest next
    | .error fault stopped => .error fault stopped

/-- Two stretches do the same on machines that are alike. -/
def Agree (code code' : List Instruction) : Prop :=
  ∀ m m' : Machine, m.Alike m' → Meets (through code m) (through code' m')

variable {m m' m'' next : Machine}

/-- A register other than the program counter has a place that is compared. -/
theorem place?_of_general {r : Int32} (free : Register.General r) :
    ∃ place, place? r = some place ∧ place.val ≠ 0 := by
  obtain ⟨above, below⟩ := free
  have inside : 0 ≤ r.toInt ∧ r.toInt < registerCount := by
    unfold registerCount
    omega
  refine ⟨_, dif_pos inside, ?_⟩
  show r.toInt.toNat ≠ 0
  omega

namespace Alike

/-- A machine is like itself. -/
theorem refl (m : Machine) : m.Alike m :=
  ⟨fun _ _ => rfl, rfl, rfl, rfl⟩

/-- What is like a machine that is like another is like that one, too. -/
theorem trans (h : m.Alike m') (h' : m'.Alike m'') : m.Alike m'' :=
  ⟨fun place other => (h.register_eq place other).trans (h'.register_eq place other),
    h.stack_eq.trans h'.stack_eq, h.grid_eq.trans h'.grid_eq, h.log_eq.trans h'.log_eq⟩

/-- Two machines are alike both ways. -/
theorem symm (h : m.Alike m') : m'.Alike m :=
  ⟨fun place other => (h.register_eq place other).symm, h.stack_eq.symm, h.grid_eq.symm, h.log_eq.symm⟩

/-- The base is the same. -/
theorem base_eq (h : m.Alike m') : m.base = m'.base :=
  h.register_eq ⟨1, by decide⟩ (by decide)

/-- The scratch register is the same. -/
theorem scratch_eq (h : m.Alike m') : m.scratch = m'.scratch :=
  h.register_eq ⟨2, by decide⟩ (by decide)

/-- A register other than the program counter has the same content. -/
theorem register?_eq (h : m.Alike m') {r : Int32} (free : Register.General r) : m.register? r = m'.register? r := by
  obtain ⟨place, found, other⟩ := place?_of_general free
  unfold register?
  rw [found]
  exact congrArg some (h.register_eq place other)

/-- A register is changed on both sides. -/
theorem put (h : m.Alike m') (n : Fin registerCount) (x : Int64) : (m.put n x).Alike (m'.put n x) := by
  refine ⟨fun place other => ?_, h.stack_eq, h.grid_eq, h.log_eq⟩
  have same : m.registers[place.val] = m'.registers[place.val] := h.register_eq place other
  change (m.registers.set n x)[place.val] = (m'.registers.set n x)[place.val]
  rw [Vector.getElem_set, Vector.getElem_set, same]

/-- The stack is changed on both sides. -/
theorem stack (h : m.Alike m') (stack : Stack) : { m with stack }.Alike { m' with stack } :=
  ⟨h.register_eq, rfl, h.grid_eq, h.log_eq⟩

/-- A word is pushed on both sides. -/
theorem push (h : m.Alike m') (x : Int64) : (m.push x).Alike (m'.push x) :=
  ⟨h.register_eq, congrArg (Stack.push x) h.stack_eq, h.grid_eq, h.log_eq⟩

/-- The program counter is no part of what is compared. -/
theorem setPc (h : m.Alike m') (address : Int64) : (m.setPc address).Alike m' := by
  refine ⟨fun place other => ?_, h.stack_eq, h.grid_eq, h.log_eq⟩
  have same : m.registers[place.val] = m'.registers[place.val] := h.register_eq place other
  change (m.registers.set 0 address)[place.val] = m'.registers[place.val]
  rw [Vector.getElem_set_ne _ _ (Ne.symm other), same]

end Alike

namespace Meets

variable {α : Type} {x y z : EStateM.Result Fault Machine α}

/-- What meets a result that meets another meets that one, too. -/
theorem trans (h : Meets x y) (h' : Meets y z) : Meets x z := by
  cases h with
  | fault =>
    cases h' with
    | fault => exact .fault
  | ok a alike =>
    cases h' with
    | ok _ alike' => exact .ok a (alike.trans alike')

end Meets

open Layout (resolve)

variable (address : Label → Int32)

/-- An instruction that goes on to the next one does on one machine what it does on a machine that is alike. -/
theorem Executes.alike {i : Instr} (straight : i.Straight) (alike : m.Alike m')
    (h : m.Executes (resolve address i) next) :
    ∃ next', m'.Executes (resolve address i) next' ∧ next.Alike next' := by
  obtain ⟨op, a, b, mark⟩ := i
  have stack_eq := alike.stack_eq
  unfold resolve at h ⊢
  dsimp only at h ⊢
  cases h with
  | const => exact ⟨_, .const _ _, alike.push _⟩
  | push known =>
    obtain ⟨r, rfl, source⟩ := straight.register rfl
    exact ⟨_, .push ((alike.register?_eq source).symm.trans known), alike.push _⟩
  | pop top found => exact ⟨_, .pop (stack_eq.symm.trans top) found, (alike.stack _).put _ _⟩
  | copy known found =>
    obtain ⟨r, s, rfl, rfl, -, source⟩ := straight.two_registers rfl
    exact ⟨_, .copy ((alike.register?_eq source).symm.trans known) found, alike.put _ _⟩
  | load known inside found =>
    obtain ⟨r, s, rfl, rfl, -, offset⟩ := straight.two_registers rfl
    rw [alike.base_eq, stack_eq] at inside ⊢
    exact ⟨_, .load ((alike.register?_eq offset).symm.trans known) inside found, alike.put _ _⟩
  | store known inside content =>
    obtain ⟨r, s, rfl, rfl, source, offset⟩ := straight.two_registers rfl
    rw [alike.base_eq, stack_eq] at inside ⊢
    exact ⟨_, .store ((alike.register?_eq offset).symm.trans known) inside
      ((alike.register?_eq source).symm.trans content), alike.stack _⟩
  | jump | pass => exact absurd rfl straight.onward
  | not top => exact ⟨_, .not (stack_eq.symm.trans top), alike.stack _⟩
  | @input _ _ x y rest top =>
    have cell : m.grid.read x y = m'.grid.read x y := by rw [alike.grid_eq]
    rw [cell]
    exact ⟨_, .input (stack_eq.symm.trans top), (alike.stack _).put ⟨2, by decide⟩ _⟩
  | output top =>
    refine ⟨_, .output (stack_eq.symm.trans top), alike.register_eq, rfl, alike.grid_eq, ?_⟩
    rw [alike.scratch_eq, alike.log_eq]
  | binary known top => exact ⟨_, .binary known (stack_eq.symm.trans top), alike.stack _⟩

/-- A step of an instruction that goes on to the next one does the same on machines that are alike. -/
theorem step_alike {i : Instr} (straight : i.Straight) (alike : m.Alike m') :
    Meets (step (resolve address i) m) (step (resolve address i) m') := by
  have moved := ((alike.setPc (m.pc + 1)).symm.setPc (m'.pc + 1)).symm
  cases first : step (resolve address i) m with
  | ok _ next =>
    obtain ⟨next', executes, alike'⟩ := (step_eq_ok_iff.1 first).alike address straight moved
    rw [step_eq_ok_iff.2 executes]
    exact .ok () alike'
  | error fault stopped =>
    cases second : step (resolve address i) m' with
    | error fault' stopped' => exact .fault
    | ok _ next' =>
      -- What succeeds on the second machine would succeed on the first one.
      obtain ⟨next, executes, -⟩ := (step_eq_ok_iff.1 second).alike address straight moved.symm
      rw [step_eq_ok_iff.2 executes] at first
      contradiction

/-- The same instructions in front of stretches that agree. -/
theorem Agree.behind {front : List Instr} (straight : ∀ i ∈ front, i.Straight)
    {code code' : List Instruction} (h : Agree code code') :
    Agree (front.map (resolve address) ++ code) (front.map (resolve address) ++ code') := by
  induction front with
  | nil => exact h
  | cons i front ih =>
    rw [List.forall_mem_cons] at straight
    intro m m' alike
    -- After the first instruction the machines are alike again, if neither faults.
    have first := step_alike address straight.1 alike
    rw [List.map_cons, List.cons_append, List.cons_append, through, through]
    generalize step (resolve address i) m = result at first
    generalize step (resolve address i) m' = result' at first
    cases first with
    | fault => exact .fault
    | ok _ alike => exact ih straight.2 _ _ alike

/-- Instructions that go on to the next one do the same on machines that are alike. -/
theorem agree_self {code : List Instr} (straight : ∀ i ∈ code, i.Straight) :
    Agree (code.map (resolve address)) (code.map (resolve address)) := by
  have nothing : Agree [] [] := fun _ _ alike => .ok () alike
  have whole := nothing.behind address straight
  rwa [List.append_nil] at whole

/-- Stretches that agree one after another. -/
theorem Agree.trans {code code' code'' : List Instruction} (h : Agree code code') (h' : Agree code' code'') :
    Agree code code'' :=
  fun m m' alike => (h m m (.refl m)).trans (h' m m' alike)

end Machine

end GridStack
