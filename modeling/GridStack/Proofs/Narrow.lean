import GridStack.Proofs.Image.WellFormed
import GridStack.Proofs.Machine.Narrow
import GridStack.Proofs.Safety

/-!
# Words stay sixteen bits wide

A linked program that is short enough for its positions to be words computes with nothing but words, on any
grid of words (`Program.linked_narrow`): every register but the program counter, every word on the stack and
every write is a number from 0 to 65535, and so no sum and no product overflows.

The constants of such a program are words: literals, positions, and the offsets of frames, of which no
code has more than it has instructions (`Linked.modest`). The rest is the invariant of the machine.
-/

namespace GridStack

open Machine (Path loaded)

/-- What a machine holds, and what it does with it in the next step, stays in sixteen bits. -/
structure Image.StaysNarrow (image : Image) (m : Machine) : Prop where
  /-- Registers other than the program counter hold words. -/
  registers : ∀ place : Fin registerCount, place.val ≠ 0 → IsWord (m.registers.get place)
  /-- The stack holds words, except for the number that stops the machine between the constant that puts it
  there and the jump behind it. -/
  stack : (∀ v ∈ m.stack.values, IsWord v) ∨
    ∃ (k : Nat) (rest : List Int64), image.StopsAt k ∧ m.pc.toInt = k + 1 ∧
      m.stack.values = halt.toInt64 :: rest ∧ ∀ v ∈ rest, IsWord v
  /-- Words are written to words. -/
  writes : ∀ w ∈ m.writes, IsWord w.x ∧ IsWord w.y ∧ IsWord w.value
  /-- An addition does not overflow. -/
  sums : ∀ i x y rest, m.fetch? image.code.toArray = some i → m.stack.values = y :: x :: rest →
    i.op = .add → (x + y).toInt = x.toInt + y.toInt
  /-- A multiplication does not overflow. -/
  products : ∀ i x y rest, m.fetch? image.code.toArray = some i → m.stack.values = y :: x :: rest →
    i.op = .mult → (x * y).toInt = x.toInt * y.toInt
  /-- The number of places of a shift is not negative. -/
  shifts : ∀ i x y rest, m.fetch? image.code.toArray = some i → m.stack.values = y :: x :: rest →
    i.op = .lshift ∨ i.op = .rshift → 0 ≤ y.toInt
  /-- The program counter does not overflow when it moves on. -/
  counter : ∀ i, m.fetch? image.code.toArray = some i → (m.pc + 1).toInt = m.pc.toInt + 1

namespace Machine

variable {image : Image} {m : Machine}

/-- The two operands on the stack of a machine that holds words. -/
theorem Narrow.operands (h : m.Narrow) {x y : Int64} {rest : List Int64}
    (top : m.stack.values = y :: x :: rest) : IsWord x ∧ IsWord y := by
  have words := h.stack
  rw [top] at words
  obtain ⟨right, below⟩ := List.forall_mem_cons.1 words
  exact ⟨below x List.mem_cons_self, right⟩

/-- A machine that holds words does not leave them in the next step either. -/
theorem NarrowIn.staysNarrow (h : m.NarrowIn image) (size : image.code.length ≤ 65536) :
    image.StaysNarrow m := by
  have operands : ∀ {i : Instruction} {x y : Int64} {rest : List Int64},
      m.fetch? image.code.toArray = some i → m.stack.values = y :: x :: rest → i.op ≠ .pop →
        IsWord x ∧ IsWord y :=
    fun fetched top other => (h.narrow_of_fetch? fetched other).operands top
  refine
    { registers := ?_
      stack := ?_
      writes := ?_
      sums := fun i x y rest fetched top add => ?_
      products := fun i x y rest fetched top mult => ?_
      shifts := fun i x y rest fetched top shift => ?_
      counter := fun i fetched => ?_ }
  · cases h with
    | narrow h => exact h.registers
    | stopping _ _ _ h => exact h.registers
  · cases h with
    | narrow h => exact .inl h.stack
    | @stopping k stack stops here top h =>
      refine .inr ⟨k, stack.values, stops, here, ?_, h.stack⟩
      rw [top, Stack.values_push]
  · have log : ∀ w ∈ m.log, IsWord w.x ∧ IsWord w.y ∧ IsWord w.value := by
      cases h with
      | narrow h => exact h.log
      | stopping _ _ _ h => exact h.log
    exact fun w mem => log w (List.mem_reverse.1 mem)
  · obtain ⟨hx, hy⟩ := operands fetched top (by rw [add]; decide)
    exact hx.toInt_add hy
  · obtain ⟨hx, hy⟩ := operands fetched top (by rw [mult]; decide)
    exact hx.toInt_mul hy
  · obtain ⟨hx, hy⟩ := operands fetched top (by rcases shift with eq | eq <;> rw [eq] <;> decide)
    exact hy.1
  · obtain ⟨k, here, found⟩ := exists_position_of_fetch? fetched
    rw [toInt_pc_succ size here found, here]

/-- The number of steps is not looked at. -/
theorem NarrowIn.withSteps (h : m.NarrowIn image) (steps : Nat) : { m with steps }.NarrowIn image := by
  cases h with
  | narrow h => exact .narrow (h.withSteps steps)
  | stopping stops here top h => exact .stopping stops here top (h.withSteps steps)

end Machine

namespace Program

variable {program : Program} {options : Options} {image : Image}

/-- A linked program that is short brings no other numbers than words to registers and stack. -/
theorem Linked.modest (l : Linked program options image) (size : image.code.length ≤ 65536) :
    image.Modest := by
  refine ⟨size, fun k i found => ?_⟩
  obtain ⟨p, drafted, rfl, -, unmarked, admits⟩ := l.exists_drafted found
  have formed := admits.wellFormed (l.few_of_mem p.part.mem).1 unmarked l.address
  by_cases const : (Layout.resolve l.address drafted).op = .const
  · obtain ⟨n, constant⟩ : ∃ n, Layout.resolve l.address drafted = ⟨.const, some n, none⟩ :=
      formed.exists_const const
    rw [constant] at found ⊢
    rcases l.constant_cases found with ⟨low, high⟩ | ⟨rfl, jump⟩
    · refine .inl ⟨fun _ => ?_, nofun, nofun, ⟨nofun, nofun⟩⟩
      show 0 ≤ n.toInt64.toInt ∧ n.toInt64.toInt ≤ 65535
      rw [Int32.toInt_toInt64]
      omega
    · exact .inr ⟨rfl, found, jump⟩
  · refine .inl ⟨fun op => absurd op const, fun op => ⟨formed.push_source op, ?_⟩,
      fun op => ⟨formed.copy_source op, ?_⟩, formed.effect.2⟩
    · exact formed.first.2 (by rw [op]; decide)
    · exact formed.second.2 (by rw [op]; decide)

/-- A machine that runs a short program holds words, if it holds words at the start. -/
theorem Linked.narrowIn (l : Linked program options image) (size : image.code.length ≤ 65536) {grid : Grid}
    (words : Reference.Worded grid) {k : Nat} {m : Machine}
    (path : Path image.code.toArray (fun _ => True) k (loaded grid) m) : m.NarrowIn image :=
  path.preserves (.narrow (Machine.narrow_loaded words)) fun _ _ keeps advances =>
    keeps.advance (l.modest size) advances

/-- Words stay sixteen bits wide: in every state that a machine comes to when it runs a short program on a
grid of words, and in the one in which a run ends, whatever its limits. -/
theorem linked_narrow (links : program.link options = .ok image) (size : image.code.length ≤ 65536)
    {grid : Grid} (words : Reference.Worded grid) :
    (∀ k m, Path image.code.toArray (fun _ => True) k (loaded grid) m → image.StaysNarrow m) ∧
      ∀ limits : Limits, image.StaysNarrow ((loaded grid).run limits image).machine := by
  obtain ⟨l⟩ := link_ok links (show image.code.length < 2147483648 by omega)
  refine ⟨fun k m path => (l.narrowIn size words path).staysNarrow size, fun limits => ?_⟩
  unfold Machine.run
  obtain ⟨k, m, -, path, ends⟩ := Machine.runFor_cases limits image.code.toArray
    (limits.steps - (loaded grid).steps) (loaded grid)
  have narrow := l.narrowIn size words path
  rcases ends with ⟨-, eq⟩ | ⟨-, -, eq⟩ | eq | ⟨stuck, running, -⟩
  · rw [eq]
    exact narrow.staysNarrow size
  · rw [eq]
    exact (narrow.withSteps _).staysNarrow size
  · rw [eq]
    exact narrow.staysNarrow size
  · -- No step of a linked program faults.
    rcases l.progress path with at_halt | ⟨next, advances⟩
    · exact absurd (Machine.halted_of_halt at_halt) running
    · rw [stuck] at advances
      contradiction

/-- A program with calls and a loop, on a grid of one word. -/
theorem linked_narrow_winding : ∃ image, winding.link {} = .ok image ∧ image.code.length ≤ 65536 ∧
    Reference.Worded [((0, 0), 65535)] ∧
      ∀ limits : Limits, image.StaysNarrow ((loaded [((0, 0), 65535)]).run limits image).machine := by
  have words : Reference.Worded [((0, 0), 65535)] := List.forall_mem_singleton.2 ⟨by decide, by decide⟩
  obtain ⟨image, links, size⟩ : ∃ image, winding.link {} = .ok image ∧ image.code.length ≤ 65536 :=
    ⟨⟨_, _⟩, by cbv, by decide⟩
  exact ⟨image, links, size, words, (linked_narrow links size words).2⟩

end Program

end GridStack
