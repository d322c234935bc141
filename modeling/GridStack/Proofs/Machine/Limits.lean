import GridStack.Proofs.Machine.Path

/-!
# What the limits of a run do

A run has two limits, and all that they do is to cut it short (`Machine.run_limited`). Without them it would
follow the steps of the machine until it stops or faults. With them it follows the same steps, no more of them
than the limit leaves and none behind a stack that is too high, and it ends without a fault exactly when the
machine stops before this. So larger limits change nothing about a run that has ended without a fault, and one
that is out of steps has made each step that it was allowed.

All of this is read off the four ways in which a run ends (`Machine.runFor_ends`), each of which has the steps in
front of its end. The converse is needed for the first way only: a run follows steps that the limits allow
(`Machine.runFor_of_walk`).
-/

namespace GridStack

namespace Machine

/-- A number of instructions are executed one behind another, of which the last one may fault. -/
inductive Execution (code : Array Instruction) : Nat → Machine → Machine → Prop
  | here {m : Machine} : Execution code 0 m m
  | fault {m stopped : Machine} {instr : Instruction} {fault : Fault} (fetched : m.fetch? code = some instr)
      (fails : step instr { m with steps := m.steps + 1 } = .error fault stopped) : Execution code 1 m stopped
  | step {k : Nat} {m next last : Machine} (advances : m.advance? code = some next)
      (rest : Execution code k next last) : Execution code (k + 1) m last

variable {code : Array Instruction} {limits : Limits} {k j remaining : Nat} {m last stop : Machine}

/-- What is executed behind steps. -/
theorem Walk.execution {limit : Nat} (walk : Walk code limit k m last) (behind : Execution code j last stop) :
    Execution code (k + j) m stop := by
  induction walk with
  | here =>
    rw [Nat.zero_add]
    exact behind
  | step advances _ _ ih =>
    rw [Nat.add_right_comm]
    exact .step advances (ih behind)

/-- A run ends without a fault exactly in a machine that has stopped, when the limits allow the steps to it. -/
theorem runFor_eq_iff : m.runFor limits code remaining = ⟨last, none⟩ ↔
    ∃ k ≤ remaining, Walk code limits.stack k m last ∧ last.halted code := by
  constructor
  · intro eq
    have ends := runFor_ends limits code remaining m
    rw [eq] at ends
    cases ends with
    | halted within walk halted => exact ⟨_, within, walk, halted⟩
  · rintro ⟨k, within, walk, halted⟩
    rw [runFor_of_walk walk within, runFor_of_halted halted]

/-- A run that is out of steps has made all that were left. -/
theorem Ends.walk_of_stepLimit {n : Nat} {stopped : Machine}
    (ends : Ends limits code remaining m ⟨stopped, some (.stepLimit n)⟩) :
    ∃ last, Walk code limits.stack remaining m last ∧ ¬ last.halted code ∧ n = limits.steps ∧
      stopped = { last with steps := last.steps + 1 } := by
  cases ends with
  | stepLimit walk running => exact ⟨_, walk, running, rfl, rfl⟩
  | fault _ _ _ fails =>
    -- No instruction has this fault.
    exact absurd (step_error fails).own id

/-- What a run does is to execute instructions, no more than it has steps left. -/
theorem Ends.execution {ending : Ending} (ends : Ends limits code remaining m ending) :
    ∃ k last, k ≤ remaining ∧ Execution code k m last ∧ (ending.machine = last ∨
      ending = ⟨{ last with steps := last.steps + 1 }, some (.stepLimit limits.steps)⟩) := by
  cases ends with
  | halted within walk halted => exact ⟨_, _, within, walk.execution .here, .inl rfl⟩
  | stepLimit walk running => exact ⟨_, _, Nat.le_refl _, walk.execution .here, .inr rfl⟩
  | stackLimit within walk advances high =>
    exact ⟨_, _, within, walk.execution (.step advances .here), .inl rfl⟩
  | fault within walk fetched fails => exact ⟨_, _, within, walk.execution (.fault fetched fails), .inl rfl⟩

/-- The limits of a run cut it short and do nothing else. -/
structure Limited (m : Machine) (limits : Limits) (image : Image) : Prop where
  /-- The run executes instructions, no more than the steps that are left: those of the limit less those that
  have been counted before, and none when there are no such steps. One step more is counted when there are not
  enough. -/
  executes : ∃ k last, k ≤ limits.steps - m.steps ∧ Execution image.code.toArray k m last ∧
    ((m.run limits image).machine = last ∨
      m.run limits image = ⟨{ last with steps := last.steps + 1 }, some (.stepLimit limits.steps)⟩)
  /-- It ends without a fault in the machine that has stopped, when this is reached in as many steps, behind each
  of which the stack is within its limit. -/
  ends_iff : ∀ last, m.run limits image = ⟨last, none⟩ ↔
    ∃ k ≤ limits.steps - m.steps, Walk image.code.toArray limits.stack k m last ∧
      last.halted image.code.toArray
  /-- It ends in the same way with larger limits. -/
  larger : (m.run limits image).fault = none → ∀ limits' : Limits, limits.steps ≤ limits'.steps →
    limits.stack ≤ limits'.stack → m.run limits' image = m.run limits image
  /-- When it is out of steps it has made all that were left, and nothing else but that one more is counted. -/
  out_of_steps : ∀ n, (m.run limits image).fault = some (.stepLimit n) → n = limits.steps ∧
    ∃ last, Walk image.code.toArray limits.stack (limits.steps - m.steps) m last ∧
      (m.run limits image).machine = { last with steps := last.steps + 1 }

/-- The limits of a run cut it short and do nothing else, whatever it runs and wherever it begins. -/
theorem run_limited (m : Machine) (limits : Limits) (image : Image) : m.Limited limits image := by
  have ends := runFor_ends limits image.code.toArray (limits.steps - m.steps) m
  refine ⟨ends.execution, fun last => runFor_eq_iff, fun ok limits' steps stack => ?_, fun n out => ?_⟩
  · have eq : m.run limits image = ⟨(m.run limits image).machine, none⟩ := by rw [← ok]
    obtain ⟨k, within, walk, halted⟩ := runFor_eq_iff.1 eq
    -- The steps to the end are allowed by the larger limits as well.
    have fewer : k ≤ limits'.steps - m.steps := by omega
    rw [eq]
    exact runFor_eq_iff.2 ⟨k, fewer, walk.mono stack, halted⟩
  · have eq : m.run limits image = ⟨(m.run limits image).machine, some (.stepLimit n)⟩ := by rw [← out]
    rw [show m.runFor limits image.code.toArray (limits.steps - m.steps) = _ from eq] at ends
    obtain ⟨last, walk, -, same, machine⟩ := ends.walk_of_stepLimit
    exact ⟨same, last, walk, machine⟩

/-- A jump into nothing is the second step of this code: two steps are enough for it, and one is not. -/
example : (fresh.run ⟨2, 1⟩ ⟨[⟨.const, some 5, none⟩, ⟨.pop, some 0, none⟩], []⟩).fault = none ∧
    (fresh.run ⟨1, 1⟩ ⟨[⟨.const, some 5, none⟩, ⟨.pop, some 0, none⟩], []⟩).fault = some (.stepLimit 1) := by
  decide +kernel

end Machine

end GridStack
