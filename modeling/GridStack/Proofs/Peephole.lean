import GridStack.Proofs.Draft.Fusible
import GridStack.Proofs.Machine.Alike

/-!
# What fusion does to a function

A function is compiled with fusion exactly when it is compiled without it, with the same error or the same
number of labels, and its code is the other code reduced (`CheckedFunction.compile_fused`). Reduced code
does the same: a pair moves a word from one register to another over the stack, and so does the copy that
it becomes; where the registers are the same nothing changes. This holds of the first pair of a stretch, as
what is in front of it and behind it is executed on machines that are alike, and so of all pairs one by one.
-/

namespace GridStack

namespace Machine

open Layout (resolve)

variable (address : Label → Int32) {m m' next : Machine}

/-- The machine after a word has been moved from one register to another. -/
def moved (m : Machine) (dest source : Fin registerCount) : Machine :=
  m.put dest (m.registers.get source)

/-- Machines stay alike when a word is moved. -/
theorem Alike.moved (alike : m.Alike m') (dest : Fin registerCount) {source : Fin registerCount}
    (other : source.val ≠ 0) : (m.moved dest source).Alike (m'.moved dest source) := by
  unfold Machine.moved
  rw [alike.register_eq source other]
  exact alike.put dest _

/-- A word that is moved to where it is changes nothing. -/
theorem moved_self (m : Machine) (place : Fin registerCount) : m.moved place place = m := by
  have same : m.registers.set place m.registers[place.val] = m.registers := Vector.set_getElem_self _
  change { m with registers := m.registers.set place m.registers[place.val] } = m
  rw [same]

/-- What an instruction that goes on to the next one does in a step, from what it does when it is executed
on a machine that is alike. -/
theorem step_of_executes {i : Instr} (straight : i.Straight) (alike : m.Alike m')
    (executes : m'.Executes (resolve address i) next) :
    ∃ after, step (resolve address i) m = .ok () after ∧ after.Alike next := by
  obtain ⟨after, executes', alike'⟩ := executes.alike address straight (alike.setPc (m.pc + 1)).symm
  exact ⟨after, step_eq_ok_iff.2 executes', alike'.symm⟩

section Registers

variable {r dest source : Int32} {place place' : Fin registerCount}

/-- The content of a register is what stands at its place. -/
theorem register?_of_place? (found : place? r = some place) : m.register? r = some (m.registers.get place) := by
  unfold register?
  rw [found]
  rfl

/-- A copy moves a word. -/
theorem executes_copy (found : place? dest = some place) (found' : place? source = some place') :
    m.Executes (resolve address (.copy dest source)) (m.moved place place') :=
  .copy (register?_of_place? found') found

end Registers

end Machine

namespace Instr

/-- An instruction with a register goes on to the next one. -/
theorem straight_imm {op : Opcode} {r : Int32} (push_or_pop : op = .push ∨ op = .pop) :
    (imm op r).Straight ↔ Register.General r := by
  have registers : (imm op r).registers = [some (.imm r)] := by
    rcases push_or_pop with rfl | rfl <;> rfl
  constructor
  · intro straight
    obtain ⟨s, eq, free⟩ := straight.free _ (by rw [registers]; exact List.mem_cons_self)
    cases eq
    exact free
  · intro free
    refine ⟨?_, ?_, ?_⟩
    · rcases push_or_pop with rfl | rfl <;> rfl
    · rcases push_or_pop with rfl | rfl <;> exact nofun
    · rw [registers]
      exact List.forall_mem_singleton.2 ⟨r, rfl, free⟩

/-- So does a copy. -/
theorem straight_copy {dest source : Int32} (free : Register.General dest) (free' : Register.General source) :
    (copy dest source).Straight :=
  ⟨rfl, nofun, List.forall_mem_cons.2 ⟨⟨dest, rfl, free⟩, List.forall_mem_singleton.2 ⟨source, rfl, free'⟩⟩⟩

end Instr

namespace Code

open Machine (Agree through Meets moved)
open Layout (resolve)

variable (address : Label → Int32) {code short : List Instr}

/-- A push and a pop behind it move a word, whatever follows. -/
theorem through_pair {source dest : Int32} (free : Register.General source) (free' : Register.General dest)
    {place place' : Fin registerCount} (found : Machine.place? dest = some place)
    (found' : Machine.place? source = some place') (rest : List Instruction) (m : Machine) :
    ∃ after, after.Alike (m.moved place place') ∧
      through (resolve address (.imm .push source) :: resolve address (.imm .pop dest) :: rest) m
        = through rest after := by
  have push : (Instr.imm .push source).Straight := (Instr.straight_imm (.inl rfl)).2 free
  have pop : (Instr.imm .pop dest).Straight := (Instr.straight_imm (.inr rfl)).2 free'
  obtain ⟨between, first, alike⟩ :=
    Machine.step_of_executes address push (.refl m) (.push (Machine.register?_of_place? found'))
  obtain ⟨after, second, alike'⟩ := Machine.step_of_executes address pop alike (.pop rfl found)
  refine ⟨after, alike', ?_⟩
  rw [through, first]
  dsimp only
  rw [through, second]

/-- A pair does what it becomes, whatever follows. -/
theorem Fuses.agree {push pop : Instr} {fused : List Instr} (pair : Fuses push pop fused)
    (straight : push.Straight) (straight' : pop.Straight) {rest : List Instruction} (h : Agree rest rest) :
    Agree (resolve address push :: resolve address pop :: rest) (fused.map (resolve address) ++ rest) := by
  intro m m' alike
  cases pair with
  | copy other =>
    have free := (Instr.straight_imm (.inl rfl)).1 straight
    have free' := (Instr.straight_imm (.inr rfl)).1 straight'
    obtain ⟨place', found', other'⟩ := Machine.place?_of_general free
    obtain ⟨place, found, -⟩ := Machine.place?_of_general free'
    obtain ⟨after, moves, eq⟩ := through_pair address free free' found found' rest m
    obtain ⟨after', copied, moves'⟩ := Machine.step_of_executes address
      (Instr.straight_copy free' free) (.refl m') (Machine.executes_copy address found found')
    -- Both ways the word is moved, and what follows finds machines that are alike.
    rw [eq, List.map_singleton, List.singleton_append, through, copied]
    exact h _ _ (moves.trans ((alike.moved place other').trans moves'.symm))
  | drop =>
    have free := (Instr.straight_imm (.inl rfl)).1 straight
    obtain ⟨place, found, -⟩ := Machine.place?_of_general free
    obtain ⟨after, moves, eq⟩ := through_pair address free free found found rest m
    rw [Machine.moved_self] at moves
    rw [eq, List.map_nil, List.nil_append]
    exact h _ _ (moves.trans alike)

/-- What a pair becomes goes on to the next instruction. -/
theorem Fuses.straight {push pop : Instr} {fused : List Instr} (pair : Fuses push pop fused)
    (straight : push.Straight) (straight' : pop.Straight) : ∀ i ∈ fused, i.Straight := by
  cases pair with
  | copy _ =>
    have free := (Instr.straight_imm (.inl rfl)).1 straight
    have free' := (Instr.straight_imm (.inr rfl)).1 straight'
    exact List.forall_mem_singleton.2 (Instr.straight_copy free' free)
  | drop => exact List.forall_mem_nil _

/-- When a pair is fused the stretch that it is in does the same. -/
theorem Reduces.agree (h : Reduces code short) (straight : ∀ i ∈ code, i.Straight) :
    Agree (code.map (resolve address)) (short.map (resolve address)) ∧ ∀ i ∈ short, i.Straight := by
  obtain ⟨-, pair⟩ := h
  simp only [List.forall_mem_append, List.forall_mem_cons] at straight ⊢
  obtain ⟨before, push, pop, behind⟩ := straight
  refine ⟨?_, before, pair.straight push pop, behind⟩
  rw [List.map_append, List.map_append, List.map_append]
  exact (pair.agree address push pop (Machine.agree_self address behind)).behind address before

/-- A stretch does what it does when it is reduced. -/
theorem Reduction.agree (h : Reduction code short) (straight : ∀ i ∈ code, i.Straight) :
    Agree (code.map (resolve address)) (short.map (resolve address)) := by
  obtain ⟨steps, -⟩ := h
  induction steps using Relation.ReflTransGen.head_induction_on with
  | refl => exact Machine.agree_self address straight
  | head step _ ih =>
    obtain ⟨same, straight'⟩ := step.agree address straight
    exact same.trans (ih straight')

end Code

/-- A routine is another one with fusion. -/
structure Routine.Fused (fused plain : Routine) : Prop where
  name_eq : fused.name = plain.name
  entry_eq : fused.entry = plain.entry
  /-- Its code is that of the other one reduced, with no pop directly behind a push any more. -/
  reduction : Code.Reduction plain.code fused.code
  /-- The instructions with labels are the same, in the same order. -/
  labelled_eq : Code.labelled fused.code = Code.labelled plain.code
  length_le : fused.code.length ≤ plain.code.length
  /-- Every stretch that is executed from one end to the other does the same when it is reduced: from
  machines that are alike both fault, or both come to machines that are alike. -/
  agree : ∀ stretch, stretch <:+: plain.code → (∀ i ∈ stretch, i.Straight) →
    ∃ short, Code.Reduction stretch short ∧ ∀ address : Label → Int32,
      Machine.Agree (stretch.map (Layout.resolve address)) (short.map (Layout.resolve address))

/-- Any function is compiled with fusion as it is compiled without it: with the same error, or with the same
number of labels and the code reduced. -/
theorem CheckedFunction.compile_fused (f : CheckedFunction) (table : FunctionTable) (next : Nat) :
    (∃ e, f.compile table false next = .error e ∧ f.compile table true next = .error e) ∨
      ∃ plain fused last, f.compile table false next = .ok (plain, last) ∧
        f.compile table true next = .ok (fused, last) ∧ fused.Fused plain := by
  unfold compile
  cases table.find? f.name with
  | none => exact .inl ⟨_, rfl, rfl⟩
  | some self =>
    let site : Site := ⟨f, table, false, ⟨next⟩⟩
    let start : Draft := ⟨next + 1, (Int32.ofNat f.params).toInt, []⟩
    obtain ⟨run_eq, simple⟩ := Emit.function_fusible site self.entry
    have both := run_eq start
    change (∃ e, Except.bind (Emit.function (site.fusing false) self.entry start) _ = .error e ∧
      Except.bind (Emit.function (site.fusing true) self.entry start.squeezed) _ = .error e) ∨
        ∃ plain fused last, Except.bind (Emit.function (site.fusing false) self.entry start) _ = _ ∧
          Except.bind (Emit.function (site.fusing true) self.entry start.squeezed) _ = _ ∧ _
    rw [both]
    cases generated : Emit.function (site.fusing false) self.entry start with
    | error e => exact .inl ⟨e, rfl, rfl⟩
    | ok r =>
      -- The code is empty at the start, so all of it is simple.
      have pairs := simple start r.1 r.2 generated (List.forall_mem_nil _)
      have reduction := (Code.reduction_squeeze pairs).1
      refine .inr ⟨_, _, _, rfl, rfl, rfl, rfl, reduction, reduction.labelled_eq, reduction.length_le, ?_⟩
      intro stretch part straight
      have simple' : ∀ i ∈ stretch.reverse, i.Simple := fun i mem =>
        pairs i (List.mem_reverse.1 (part.subset (List.mem_reverse.1 mem)))
      have own := (Code.reduction_squeeze simple').1
      rw [List.reverse_reverse] at own
      exact ⟨_, own, fun address => own.agree address straight⟩

end GridStack
