import GridStack.Proofs.Agreement
import GridStack.Proofs.Machine.Path
import GridStack.Proofs.Machine.View

/-!
# Machines that hold words

Registers and stack of the machine have 64 bits, and only some instructions cut their results to sixteen.
Of a machine that holds words (`Machine.Narrow`) the others make words as well, as long as no larger
numbers come in from outside: by a constant, or from the program counter.

That an instruction keeps a machine narrow is seen on its rule (`Machine.Executes.narrow`): what it writes is a
word that was there, or is made of words. The number that stops the machine is the one constant that is no
word. It is on the stack for one step, and the invariant of a run allows for this (`Machine.NarrowIn`).
-/

namespace GridStack

open Reference (Word Worded content)

/-- A number of sixteen bits without a sign. -/
def IsWord (n : Int64) : Prop :=
  0 ≤ n.toInt ∧ n.toInt ≤ 65535

/-- Whether a number is a word can be computed. -/
instance (n : Int64) : Decidable (IsWord n) :=
  inferInstanceAs (Decidable (_ ∧ _))

namespace IsWord

variable {x y : Int64}

/-- The content of a register that holds a word. -/
theorem of_content (w : Word) : IsWord (content w) := by
  have small := w.isLt
  unfold IsWord
  rw [Reference.toInt_content]
  omega

/-- What is cut to a word is one. -/
theorem of_wrap (x : Int64) : IsWord (wrap x) := by
  rw [Reference.wrap_eq]
  exact of_content _

/-- A condition is a word. -/
theorem of_truth (condition : Bool) : IsWord (truth condition) := by
  rw [Reference.truth_eq]
  exact of_content _

/-- A word is the content of a register. -/
theorem exists_content (h : IsWord x) : ∃ w, x = content w := by
  refine ⟨BitVec.ofInt 16 x.toInt, Int64.toInt_inj.1 ?_⟩
  obtain ⟨low, high⟩ := h
  rw [Reference.toInt_content, BitVec.toNat_ofInt]
  omega

/-- An instruction that puts a function in place of two words makes a word. -/
theorem of_binary? {op : Opcode} {f : Int64 → Int64 → Int64} (known : op.binary? = some f) (hx : IsWord x)
    (hy : IsWord y) : IsWord (f x y) := by
  obtain ⟨v, rfl⟩ := hx.exists_content
  obtain ⟨w, rfl⟩ := hy.exists_content
  cases op <;> cases known
  case add => exact of_wrap _
  case mult => exact of_wrap _
  case and =>
    show IsWord (content v &&& content w)
    rw [Reference.content_and]
    exact of_content _
  case or =>
    show IsWord (content v ||| content w)
    rw [Reference.content_or]
    exact of_content _
  case xor =>
    show IsWord (content v ^^^ content w)
    rw [Reference.content_xor]
    exact of_content _
  case lshift =>
    rw [Reference.shiftLeft_content]
    exact of_content _
  case rshift =>
    rw [Reference.shiftRight_content]
    exact of_content _
  case equals => exact of_truth _
  case lessThan => exact of_truth _

/-- The sum of two words does not overflow. -/
theorem toInt_add (hx : IsWord x) (hy : IsWord y) : (x + y).toInt = x.toInt + y.toInt := by
  obtain ⟨low, high⟩ := hx
  obtain ⟨low', high'⟩ := hy
  rw [Int64.toInt_add]
  exact Int.bmod_eq_of_le (by omega) (by omega)

/-- The product of two words does not overflow. -/
theorem toInt_mul (hx : IsWord x) (hy : IsWord y) : (x * y).toInt = x.toInt * y.toInt := by
  obtain ⟨low, high⟩ := hx
  obtain ⟨low', high'⟩ := hy
  have most : x.toInt * y.toInt ≤ 65535 * 65535 := Int.mul_le_mul high high' low' (by decide)
  have least : 0 ≤ x.toInt * y.toInt := Int.mul_nonneg low low'
  rw [Int64.toInt_mul]
  exact Int.bmod_eq_of_le (by omega) (by omega)

end IsWord

namespace Machine

/-- A machine all of whose numbers are words, besides the program counter and the number of steps. -/
structure Narrow (m : Machine) : Prop where
  registers : ∀ place : Fin registerCount, place.val ≠ 0 → IsWord (m.registers.get place)
  stack : ∀ v ∈ m.stack.values, IsWord v
  log : ∀ w ∈ m.log, IsWord w.x ∧ IsWord w.y ∧ IsWord w.value
  grid : Worded m.grid

/-- A machine that has not run holds words, if its cells do. -/
theorem narrow_loaded {grid : Grid} (words : Worded grid) : (loaded grid).Narrow := by
  refine ⟨fun place _ => ?_, List.forall_mem_nil _, List.forall_mem_nil _, words⟩
  have zero : (loaded grid).registers[place.val] = 0 := Vector.getElem_replicate _
  show IsWord (loaded grid).registers[place.val]
  rw [zero]
  decide

/-- Only the program counter has its place. -/
theorem place_ne_zero {r : Int32} {place : Fin registerCount} (found : place? r = some place)
    (other : r ≠ Register.pc) : place.val ≠ 0 := by
  unfold place? at found
  split at found
  · next inside =>
    cases found
    show r.toInt.toNat ≠ 0
    intro zero
    refine other (Int32.toInt_inj.1 ?_)
    show r.toInt = 0
    omega
  · contradiction

namespace Narrow

variable {m : Machine}

/-- Another register than the program counter is given a word. -/
theorem put (h : m.Narrow) (place : Fin registerCount) {v : Int64} (word : place.val ≠ 0 → IsWord v) :
    (m.put place v).Narrow := by
  refine ⟨fun other general => ?_, h.stack, h.log, h.grid⟩
  show IsWord (m.registers.set place v place.isLt)[other.val]
  rw [Vector.getElem_set]
  split
  · next same => exact word (same ▸ general)
  · exact h.registers other general

/-- The program counter may be any number. -/
theorem setPc (h : m.Narrow) (address : Int64) : (m.setPc address).Narrow :=
  h.put ⟨0, by decide⟩ (absurd rfl)

/-- Words are put on the stack. -/
theorem withStack (h : m.Narrow) (stack : Stack) (words : ∀ v ∈ stack.values, IsWord v) :
    { m with stack }.Narrow :=
  ⟨h.registers, words, h.log, h.grid⟩

/-- One more word is put on the stack. -/
theorem push (h : m.Narrow) {v : Int64} (word : IsWord v) : (m.push v).Narrow :=
  h.withStack _ (List.forall_mem_cons.2 ⟨word, h.stack⟩)

/-- What is popped is a word, and what is left are words. -/
theorem pop (h : m.Narrow) {v : Int64} {rest : Stack} (top : m.stack = rest.push v) :
    IsWord v ∧ { m with stack := rest }.Narrow := by
  have words := h.stack
  rw [top, Stack.values_push] at words
  obtain ⟨word, below⟩ := List.forall_mem_cons.1 words
  exact ⟨word, h.withStack rest below⟩

/-- Two operands are words, and what is left are words. -/
theorem pop_two (h : m.Narrow) {x y : Int64} {rest : Stack} (top : m.stack = (rest.push x).push y) :
    IsWord x ∧ IsWord y ∧ { m with stack := rest }.Narrow := by
  obtain ⟨right, narrow⟩ := h.pop top
  obtain ⟨left, narrow⟩ := narrow.pop rfl
  exact ⟨left, right, narrow⟩

/-- The content of another register than the program counter is a word. -/
theorem register? (h : m.Narrow) {r : Int32} {v : Int64} (known : m.register? r = some v)
    (other : r ≠ Register.pc) : IsWord v := by
  unfold Machine.register? at known
  split at known
  · next place found =>
    cases known
    exact h.registers place (place_ne_zero found other)
  · contradiction

/-- A cell that has no entry reads as zero, and any other one holds a word. -/
theorem read (h : m.Narrow) (x y : Int64) : IsWord (m.grid.read x y) := by
  rw [← Reference.content_read h.grid x y]
  exact IsWord.of_content _

/-- The number of steps does not matter. -/
theorem withSteps (h : m.Narrow) (steps : Nat) : { m with steps }.Narrow :=
  ⟨h.registers, h.stack, h.log, h.grid⟩

/-- A step begins with the same words. -/
theorem begun (h : m.Narrow) : m.begun.Narrow :=
  (h.withSteps _).setPc _

end Narrow

end Machine

/-- An instruction that brings no other numbers than words to registers and stack. -/
structure Instruction.Modest (i : Instruction) : Prop where
  const : i.op = .const → IsWord (i.a.getD 0).toInt64
  push : i.op = .push → i.a ≠ some Register.pc ∧ i.a.isSome
  copy : i.op = .copy → i.b ≠ some Register.pc ∧ i.b.isSome
  frame : i.op ≠ .load ∧ i.op ≠ .store

/-- The register that an instruction reads is another one than the program counter. -/
theorem Instruction.register_ne_pc {a : Option Int32} (h : a ≠ some Register.pc ∧ a.isSome) :
    a.getD 0 ≠ Register.pc := by
  obtain ⟨r, rfl⟩ := Option.isSome_iff_exists.1 h.2
  exact fun same => h.1 (congrArg some same)

namespace Machine

/-- A modest instruction keeps a machine narrow. -/
theorem Executes.narrow {i : Instruction} {m next : Machine} (h : m.Executes i next) (modest : i.Modest)
    (narrow : m.Narrow) : next.Narrow := by
  cases h with
  | const a b => exact narrow.push (modest.const rfl)
  | push known => exact narrow.push (narrow.register? known (Instruction.register_ne_pc (modest.push rfl)))
  | pop top found =>
    obtain ⟨word, below⟩ := narrow.pop top
    exact below.put _ fun _ => word
  | copy known found =>
    have word := narrow.register? known (Instruction.register_ne_pc (modest.copy rfl))
    exact narrow.put _ fun _ => word
  | load => exact absurd rfl modest.frame.1
  | store => exact absurd rfl modest.frame.2
  | jump top known => exact (narrow.pop top).2.setPc _
  | pass top other => exact (narrow.pop top).2
  | not top => exact (narrow.pop top).2.push (.of_wrap _)
  | @input _ _ x y rest top =>
    obtain ⟨-, -, below⟩ := narrow.pop_two top
    exact below.put ⟨2, by decide⟩ fun _ => narrow.read x y
  | output top =>
    obtain ⟨left, right, below⟩ := narrow.pop_two top
    have value : IsWord m.scratch := narrow.registers ⟨2, by decide⟩ (by decide)
    exact ⟨below.registers, below.stack, List.forall_mem_cons.2 ⟨⟨left, right, value⟩, narrow.log⟩, below.grid⟩
  | binary known top =>
    obtain ⟨left, right, below⟩ := narrow.pop_two top
    exact below.push (.of_binary? known left right)

end Machine

namespace Image

/-- A constant that stops the machine stands at a position, with the jump behind it. -/
def StopsAt (image : Image) (k : Nat) : Prop :=
  image.code[k]? = some ⟨.const, some halt, none⟩ ∧
    image.code[k + 1]? = some ⟨.pop, some Register.pc, none⟩

/-- Code of at most as many instructions as there are words, which brings no other numbers than words to
registers and stack, except the one that stops the machine. -/
structure Modest (image : Image) : Prop where
  size : image.code.length ≤ 65536
  instructions : ∀ k i, image.code[k]? = some i →
    i.Modest ∨ (i = ⟨.const, some halt, none⟩ ∧ image.StopsAt k)

end Image

namespace Machine

/-- A machine that runs an image holds words, besides the program counter: all of its numbers are words, or
all but the one on top of the stack, which it is about to jump to in order to stop. -/
inductive NarrowIn (image : Image) (m : Machine) : Prop
  | narrow (h : m.Narrow)
  | stopping {k : Nat} {stack : Stack} (stops : image.StopsAt k) (here : m.pc.toInt = k + 1)
      (top : m.stack = stack.push halt.toInt64) (h : { m with stack }.Narrow)

variable {image : Image} {m next : Machine}

/-- The program counter that has been set. -/
theorem pc_setPc (m : Machine) (address : Int64) : (m.setPc address).pc = address := by
  simp [setPc, pc]

/-- A machine fetches the instruction at its program counter. -/
theorem fetch?_toArray {k : Nat} {i : Instruction} (here : m.pc.toInt = k) :
    m.fetch? image.code.toArray = some i ↔ image.code[k]? = some i := by
  unfold fetch?
  rw [if_pos (by omega), List.getElem?_toArray, here, Int.toNat_natCast]

/-- The instruction that a machine fetches stands somewhere. -/
theorem exists_position_of_fetch? {i : Instruction} (h : m.fetch? image.code.toArray = some i) :
    ∃ k : Nat, m.pc.toInt = k ∧ image.code[k]? = some i := by
  have low : 0 ≤ m.pc.toInt := by
    unfold fetch? at h
    split at h
    · assumption
    · contradiction
  have here : m.pc.toInt = m.pc.toInt.toNat := (Int.toNat_of_nonneg low).symm
  exact ⟨m.pc.toInt.toNat, here, (fetch?_toArray here).1 h⟩

/-- The program counter does not overflow inside short code. -/
theorem toInt_pc_succ {k : Nat} {i : Instruction} (size : image.code.length ≤ 65536)
    (here : m.pc.toInt = k) (found : image.code[k]? = some i) : (m.pc + 1).toInt = k + 1 := by
  obtain ⟨inside, -⟩ := List.getElem?_eq_some_iff.1 found
  have one : (1 : Int64).toInt = 1 := rfl
  rw [Int64.toInt_add, here, one]
  exact Int.bmod_eq_of_le (by omega) (by omega)

/-- A machine that is about to stop has the jump in front of it, and any other one holds words. -/
theorem NarrowIn.narrow_of_fetch? (h : m.NarrowIn image) {i : Instruction}
    (fetched : m.fetch? image.code.toArray = some i) (other : i.op ≠ .pop) : m.Narrow := by
  cases h with
  | narrow h => exact h
  | @stopping k stack stops here top h =>
    have jump := (fetch?_toArray here).2 stops.2
    rw [fetched] at jump
    obtain rfl := Option.some.inj jump
    exact absurd rfl other

/-- A step keeps the numbers of the machine words. -/
theorem NarrowIn.advance (modest : image.Modest) (h : m.NarrowIn image)
    (advances : m.advance? image.code.toArray = some next) : next.NarrowIn image := by
  obtain ⟨i, fetched, executes⟩ := advance?_iff_executes.1 advances
  obtain ⟨k, here, found⟩ := exists_position_of_fetch? fetched
  cases h with
  | narrow h =>
    rcases modest.instructions k i found with calm | ⟨rfl, stops⟩
    · exact .narrow (executes.narrow calm h.begun)
    · -- The constant that stops the machine is put on words.
      cases executes with
      | binary known => contradiction
      | const =>
        have behind : m.begun.pc.toInt = (k : Int) + 1 := by
          unfold Machine.begun
          rw [pc_setPc]
          exact toInt_pc_succ modest.size here found
        exact .stopping stops behind rfl h.begun
  | @stopping j stack stops before top h =>
    obtain rfl : k = j + 1 := by omega
    obtain rfl : i = ⟨.pop, some Register.pc, none⟩ := Option.some.inj (found.symm.trans stops.2)
    -- The jump takes the number off the stack again, to where it may be any number.
    cases executes with
    | binary known => contradiction
    | pop popped there =>
      cases there
      have same := congrArg Stack.pop? (top.symm.trans popped)
      rw [Stack.pop?_push, Stack.pop?_push] at same
      cases same
      exact .narrow (h.begun.setPc halt.toInt64)

end Machine

end GridStack
