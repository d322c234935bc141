import GridStack.Proofs.Machine.Executes

/-!
# What an instruction does to the stack

Generation counts the words on the stack by a table (`Opcode.stackEffect`), and the machine pushes and pops
them. `Machine.step_effect` says that the two agree, whatever the operands of an instruction and the content
of registers and stack are: the height changes by the number in the table, no more than two words from the
top are touched, and the one instruction that reaches further down writes one word there.

An instruction trades words when it takes some off the top and puts others in their place (`Machine.Traded`). By
the rules all instructions but `STORE` do so (`Machine.Executes.traded`), each as many as the table says, and what a
`STORE` does is its own rule.
-/

namespace GridStack

namespace Stack

/-- Replacing a word keeps the height. -/
theorem height_set (stack : Stack) (position : Nat) (value : Int64) :
    (stack.set position value).height = stack.height := by
  unfold set
  split <;> rfl

/-- A word that is replaced is another one, and no other word is. -/
theorem get?_set (stack : Stack) {position : Nat} (inside : position < stack.height) (value : Int64) (p : Nat) :
    (stack.set position value).get? p = if p = position then some value else stack.get? p := by
  have length := stack.height_eq
  unfold set
  rw [if_pos inside]
  unfold get?
  dsimp only
  rw [List.getElem?_set]
  by_cases here : p = position
  · subst here
    rw [if_pos rfl, if_pos inside, if_pos rfl, if_pos (by omega)]
  · rw [if_neg here]
    by_cases high : p < stack.height
    · rw [if_pos high, if_pos high, if_neg (by omega)]
    · rw [if_neg high, if_neg high]

end Stack

namespace Opcode

/-- How many words the instruction takes off the stack. -/
def takes : Opcode → Nat
  | noop | const | push | load | store | copy => 0
  | pop | jumpIf | not => 1
  | input | output | add | mult | and | or | xor | lshift | rshift | equals | lessThan => 2

/-- How many words the instruction puts on the stack. -/
def puts : Opcode → Nat
  | noop | pop | load | store | copy | jumpIf | input | output => 0
  | const | push | not | add | mult | and | or | xor | lshift | rshift | equals | lessThan => 1

/-- The net effect is what is put less what is taken. -/
theorem stackEffect_eq (op : Opcode) : op.stackEffect = op.puts - op.takes := by
  cases op <;> rfl

/-- No instruction has more than two operands on the stack. -/
theorem takes_le (op : Opcode) : op.takes ≤ 2 := by
  cases op <;> decide

/-- An instruction that puts a function in place of two operands takes these and puts the result. -/
theorem trades_of_binary? {op : Opcode} {f : Int64 → Int64 → Int64} (known : op.binary? = some f) :
    op.takes = 2 ∧ op.puts = 1 := by
  cases op <;> cases known <;> exact ⟨rfl, rfl⟩

end Opcode

namespace Machine

/-- Some words on top of the stack have been replaced by others. -/
def Traded (m next : Machine) (taken put : Nat) : Prop :=
  ∃ old new below, m.stack.values = old ++ below ∧ next.stack.values = new ++ below ∧
    old.length = taken ∧ new.length = put

/-- The height changes by what is put less what is taken. -/
theorem Traded.height {m next : Machine} {taken put : Nat} (h : m.Traded next taken put) :
    (next.stack.height : Int) = m.stack.height + (put - taken) := by
  obtain ⟨old, new, below, before, after, took, gave⟩ := h
  have height := m.stack.height_eq
  have height' := next.stack.height_eq
  rw [before, List.length_append, took] at height
  rw [after, List.length_append, gave] at height'
  omega

/-- Every instruction but `STORE` replaces as many words on top of the stack as the table says. -/
theorem Executes.traded {instr : Instruction} {m next : Machine} (h : m.Executes instr next)
    (other : instr.op ≠ .store) : m.Traded next instr.op.takes instr.op.puts := by
  cases h with
  | const | push => exact ⟨[], [_], m.stack.values, rfl, rfl, rfl, rfl⟩
  | @pop _ _ value rest _ top => exact ⟨[value], [], rest.values, congrArg Stack.values top, rfl, rfl, rfl⟩
  | copy | load => exact ⟨[], [], m.stack.values, rfl, rfl, rfl, rfl⟩
  | store => exact absurd rfl other
  | @jump _ _ _ rest top => exact ⟨[0], [], rest.values, congrArg Stack.values top, rfl, rfl, rfl⟩
  | @pass _ _ condition rest top => exact ⟨[condition], [], rest.values, congrArg Stack.values top, rfl, rfl, rfl⟩
  | @not _ _ x rest top => exact ⟨[x], [_], rest.values, congrArg Stack.values top, rfl, rfl, rfl⟩
  | @input _ _ x y rest top | @output _ _ x y rest top =>
    exact ⟨[y, x], [], rest.values, congrArg Stack.values top, rfl, rfl, rfl⟩
  | @binary op f _ _ x y rest known top =>
    obtain ⟨takes, puts⟩ := Opcode.trades_of_binary? known
    exact ⟨[y, x], [f x y], rest.values, congrArg Stack.values top, rfl, takes.symm, puts.symm⟩

/-- The word of the frame that a `STORE` changes, and the machine behind it. Registers are read when the program
counter has moved on. -/
structure StoreEffect (instr : Instruction) (m next : Machine) : Prop where
  word : ∃ (offset value : Int64) (position : Nat),
    (m.setPc (m.pc + 1)).register? (instr.b.getD 0) = some offset ∧
      (m.setPc (m.pc + 1)).register? (instr.a.getD 0) = some value ∧
        (position : Int) = (m.base + offset).toInt ∧
          ∀ p, next.stack.get? p = if p = position then some value else m.stack.get? p
  registers : ∀ place : Fin registerCount, place.val ≠ 0 → next.registers.get place = m.registers.get place

/-- What a step does to the stack. -/
structure StackEffect (instr : Instruction) (m next : Machine) : Prop where
  /-- The height changes by the number in the table. -/
  height : (next.stack.height : Int) = m.stack.height + instr.op.stackEffect
  /-- No more than two words, from the top on, are taken off or changed. -/
  top : instr.op ≠ .store → ∃ old new below, m.stack.values = old ++ below ∧
    next.stack.values = new ++ below ∧ old.length ≤ 2
  store : instr.op = .store → StoreEffect instr m next

/-- Another register than the program counter is not changed when this one is set. -/
theorem get_setPc (m : Machine) (address : Int64) {place : Fin registerCount} (other : place.val ≠ 0) :
    (m.setPc address).registers.get place = m.registers.get place := by
  change (m.registers.set 0 address)[place.val] = m.registers[place.val]
  exact Vector.getElem_set_ne _ _ (Ne.symm other)

/-- The base stays when the program counter is set. -/
theorem base_setPc (m : Machine) (address : Int64) : (m.setPc address).base = m.base :=
  @get_setPc m address ⟨1, by decide⟩ (by decide)

/-- What a `STORE` does: the height stays, and one word of the frame is replaced. -/
theorem Executes.store_effect {instr : Instruction} {m next : Machine}
    (h : (m.setPc (m.pc + 1)).Executes instr next) (store : instr.op = .store) : StackEffect instr m next := by
  obtain ⟨op, a, b⟩ := instr
  obtain rfl : op = .store := store
  cases h with
  | @store _ _ offset value known inside content =>
    rw [base_setPc] at inside
    have low : (m.base + offset).toInt.toNat < m.stack.height := (Int.toNat_lt inside.1).2 inside.2
    refine ⟨?_, fun other => absurd rfl other, fun _ => ⟨⟨offset, value, _, known, content,
      Int.toNat_of_nonneg inside.1, ?_⟩, fun _ => get_setPc m _⟩⟩
    · exact (congrArg Nat.cast (Stack.height_set m.stack _ value)).trans (Int.add_zero _).symm
    · rw [base_setPc]
      exact Stack.get?_set m.stack low value
  | binary known => contradiction

/-- The static effects of the instructions on the stack are what a step does. -/
theorem step_effect {instr : Instruction} {m next : Machine} (succeeds : step instr m = .ok () next) :
    StackEffect instr m next := by
  have executes := step_eq_ok_iff.1 succeeds
  -- A `STORE` is the one instruction that reaches below the words that it takes and puts.
  by_cases store : instr.op = .store
  · exact executes.store_effect store
  · have height := (executes.traded store).height
    obtain ⟨old, new, below, before, after, took, -⟩ := executes.traded store
    have few : old.length ≤ 2 := by
      rw [took]
      exact instr.op.takes_le
    refine ⟨?_, fun _ => ⟨old, new, below, before, after, few⟩, fun is => absurd is store⟩
    rw [Opcode.stackEffect_eq]
    exact height

/-- A machine with three words on its stack, the base at the second one, and an offset of one in register 3. -/
def framed : Machine where
  registers := #v[7, 1, 0, 1, 9, 0, 0, 0]
  stack := ((Stack.empty.push 5).push 6).push 8
  grid := []
  log := []
  steps := 0

/-- A `STORE` of register 4 at the offset in register 3 replaces the third word. -/
theorem step_effect_framed :
    step ⟨.store, some 4, some 3⟩ framed = .ok () { framed.setPc 8 with stack := framed.stack.set 2 9 } ∧
      StackEffect ⟨.store, some 4, some 3⟩ framed { framed.setPc 8 with stack := framed.stack.set 2 9 } := by
  have succeeds : step ⟨.store, some 4, some 3⟩ framed =
    .ok () { framed.setPc 8 with stack := framed.stack.set 2 9 } := by rfl
  exact ⟨succeeds, step_effect succeeds⟩

end Machine

end GridStack
