import GridStack.Program.Build
import GridStack.Proofs.Acceptance.Exact
import GridStack.Proofs.Image.WellFormed

/-!
# Which images fit words

The machine has words of 16 bits. Literals are cut to words when code is generated for them, but an address is
a count of instructions, and nothing compares it with the size of a word. `Image.Fits` is that every operand
of an image is below a limit, the one that stops the machine apart. For a linked program this is the size of a
word, or the number of instructions if there are more of them (`link_fits`).

So an image of no more than 65536 instructions fits words, and one with more need not: `returning` are programs
with an address as high as one likes (`returning_first`).
-/

namespace GridStack

open Layout (resolve room)

/-- Every operand is the number that stops the machine, or is not negative and below a limit. -/
def Image.Fits (image : Image) (limit : Nat) : Prop :=
  ∀ i ∈ image.code, ∀ n ∈ i.operands, n = halt ∨ (0 ≤ n.toInt ∧ n.toInt < limit)

namespace Instruction

variable {vars : Nat} {i : Instruction}

/-- A well-formed instruction that takes no operands has none. -/
theorem WellFormed.operands_of_bare (h : i.WellFormed vars) (bare : i.op.arity = 0) : i.operands = [] := by
  have no_first : i.a = none := by
    rw [← Option.not_isSome_iff_eq_none, h.first, bare]
    exact Nat.not_succ_le_zero 0
  have no_second : i.b = none := by
    rw [← Option.not_isSome_iff_eq_none, h.second, bare]
    exact (Nat.succ_ne_zero 1).symm
  unfold operands
  rw [no_first, no_second]
  rfl

/-- The operands of a well-formed instruction are registers, unless it is a constant. -/
theorem WellFormed.operands_eq (h : i.WellFormed vars) (other : i.op ≠ .const) : i.operands = i.registers := by
  obtain ⟨op, a, b⟩ := i
  cases op with
  | const => exact absurd rfl other
  | push | pop | copy | jumpIf => rfl
  -- The next three are not well-formed, whatever their operands are.
  | noop => exact absurd rfl h.effect.1
  | load => exact absurd rfl h.effect.2.1
  | store => exact absurd rfl h.effect.2.2
  | input | output | add | mult | and | or | xor | lshift | rshift | not | equals | lessThan =>
    exact h.operands_of_bare rfl

end Instruction

namespace Program

section Linked

variable {program : Program} {options : Options} {image : Image}

/-- The operands of a linked program are below the size of a word, or positions of instructions. -/
theorem link_fits (links : program.link options = .ok image) (short : image.Addressable) :
    image.Fits (max 65536 image.code.length) := by
  obtain ⟨l⟩ := link_ok links short
  intro i mem n operand
  obtain ⟨k, found⟩ := List.getElem?_of_mem mem
  obtain ⟨p, drafted, eq, -, unmarked, admits⟩ := l.exists_drafted found
  have formed : i.WellFormed p.part.f.vars.length := by
    rw [eq]
    exact admits.wellFormed (l.few_of_mem p.part.mem).1 unmarked l.address
  by_cases const : i.op = .const
  · obtain ⟨m, rfl⟩ := formed.exists_const const
    obtain rfl : n = m := List.mem_singleton.1 operand
    -- It is a literal or a position, unless it stops the machine.
    rcases l.constant_cases found with ⟨low, high⟩ | ⟨stops, -⟩
    · exact .inr ⟨low, by omega⟩
    · exact .inl stops
  · -- The number of a register is far below.
    rw [formed.operands_eq const] at operand
    obtain ⟨low, high, -⟩ := formed.range n operand
    exact .inr ⟨low, by omega⟩

end Linked

/-- The instructions of a program with calls and a loop, among them the one that pushes the entry of
`draw`. -/
theorem link_fits_winding : ∃ image, winding.link {} = .ok image ∧ image.Addressable ∧
    ⟨.const, some 40, none⟩ ∈ image.code ∧ image.code.length ≤ 65536 ∧ image.Fits 65536 := by
  obtain ⟨image, links, short, entry, few⟩ : ∃ image, winding.link {} = .ok image ∧ image.Addressable ∧
      ⟨.const, some 40, none⟩ ∈ image.code ∧ image.code.length ≤ 65536 :=
    ⟨⟨_, _⟩, by cbv, by decide, by decide, by decide⟩
  have fits := link_fits links short
  rw [Nat.max_eq_left few] at fits
  exact ⟨image, links, short, entry, few, fits⟩

section Returning

/-- `void main() { return; ... }`, with a number of returns. -/
def returning (n : Nat) : Program :=
  ⟨[.procedure "main" [] (List.replicate n (.ret none))]⟩

/-- The statements in returns are those returns. -/
theorem eq_ret_of_mem {n : Nat} {s : Stmt} (mem : s ∈ Stmt.partsOfAll (List.replicate n (.ret none))) :
    s = .ret none := by
  induction n with
  | zero => exact absurd mem List.not_mem_nil
  | succ n ih =>
    rw [List.replicate_succ, Stmt.partsOfAll, Stmt.parts] at mem
    rcases List.mem_append.1 mem with head | tail
    · exact List.mem_singleton.1 head
    · exact ih tail

/-- Any number of returns is accepted. -/
theorem returning_acceptable (n : Nat) : (returning n).Acceptable := by
  have names : (FunctionDecl.procedure "main" [] (List.replicate n (.ret none))).names = [] := by
    refine List.flatMap_eq_nil_iff.2 fun s mem => ?_
    rw [eq_ret_of_mem mem]
    rfl
  refine ⟨?_, List.nodup_singleton _, ⟨_, List.mem_singleton_self _, rfl, rfl, rfl⟩, ?_, ?_⟩
  · refine List.forall_mem_singleton.2 ⟨?_, ?_⟩
    · show mainName ≠ inputName
      decide
    · show mainName ≠ outputName
      decide
  · refine List.forall_mem_singleton.2 ⟨⟨rfl, rfl, rfl⟩, ?_, .inr rfl, List.forall_mem_nil _, ?_, ?_⟩
    · show mainName ≠ printName
      decide
    · rw [names]
      exact ⟨List.nodup_nil, Nat.zero_le _⟩
    · intro s mem
      rw [eq_ret_of_mem mem]
      exact ⟨rfl, List.forall_mem_nil _⟩
  · refine List.forall_mem_singleton.2 fun s mem => ?_
    rw [eq_ret_of_mem mem]
    exact ⟨trivial, List.forall_mem_nil _⟩

/-- The code of returns. -/
theorem code_of_returns {site : Site} {depth : Int} {next n : Nat} {block : List Instr}
    (code : StmtsCode site depth next (List.replicate n (.ret none)) block) :
    block = (List.replicate n (Code.jump (.label site.exit))).flatten := by
  induction n generalizing next block with
  | zero =>
    cases code
    rfl
  | succ n ih =>
    rw [List.replicate_succ] at code ⊢
    cases code with
    | cons head tail =>
      cases head
      rw [ih tail, List.flatten_cons]

/-- The code of the program: its returns, each of them a jump behind all of them, and the end. -/
theorem returning_code {n : Nat} {options : Options} {object : Object}
    (compiled : (returning n).compile options = .ok object) :
    ∃ entry exit, object.code = .marker entry :: ((List.replicate n (Code.jump (.label exit))).flatten ++
      .marker exit :: Code.jump (.imm halt)) := by
  obtain ⟨functions, checked, h⟩ := Check.bind_ok compiled
  -- There is one function, so the code of the program is that of one routine.
  have declared : functions = [_] := (returning n).check_decides.eq_of_ok checked
  subst declared
  obtain ⟨⟨routine, next⟩, first, h⟩ := Check.bind_ok h
  obtain ⟨rest, others, h⟩ := Check.bind_ok h
  cases others
  cases h
  obtain ⟨callee, -, code, -⟩ := CheckedFunction.compile_ok first
  refine ⟨callee.entry, ⟨1⟩, ?_⟩
  show List.flatMap Routine.code [routine] = _
  rw [List.flatMap_singleton]
  generalize routine.code = block at code ⊢
  cases code with
  | mk body =>
    rw [code_of_returns body]
    rfl

/-- Each return takes two instructions. -/
theorem room_returns (n : Nat) (exit : Label) :
    room (List.replicate n (Code.jump (.label exit))).flatten = 2 * n := by
  induction n with
  | zero => rfl
  | succ n ih =>
    rw [List.replicate_succ, List.flatten_cons, Layout.room_append, ih]
    have two : room (Code.jump (.label exit)) = 2 := rfl
    omega

/-- Any number of returns links. -/
theorem returning_links (n : Nat) (options : Options) : ∃ image, (returning n).link options = .ok image := by
  have settled := (returning n).link_settles options
  cases linked : (returning n).link options with
  | ok image => exact ⟨image, rfl⟩
  | error e =>
    rw [linked] at settled
    exact absurd (returning_acceptable n) settled.1

/-- The image has two instructions for each return, and two for the end. -/
theorem returning_length {n : Nat} {options : Options} {image : Image}
    (links : (returning n).link options = .ok image) : image.code.length = 2 * n + 2 := by
  obtain ⟨object, compiled, laid⟩ := Check.bind_ok links
  obtain ⟨entry, exit, code⟩ := returning_code compiled
  have last : room (.marker exit :: Code.jump (.imm halt)) = 2 := rfl
  calc image.code.length
    _ = room object.code := Layout.length_of_ofRoutines laid
    _ = 2 * n + 2 := by
      rw [code, Layout.room_cons_of_isMarker rfl, Layout.room_append, room_returns, last]

/-- The first instruction of the image is a constant, the address behind all returns. -/
theorem returning_first {n : Nat} (some_return : 0 < n) {options : Options} {image : Image}
    (links : (returning n).link options = .ok image) (short : image.Addressable) :
    ∃ address : Int32, image.code[0]? = some ⟨.const, some address, none⟩ ∧ address.toInt = 2 * n := by
  obtain ⟨l⟩ := link_ok links short
  obtain ⟨entry, exit, code⟩ := returning_code l.compile_eq
  refine ⟨l.address exit, ?_, ?_⟩
  · obtain ⟨m, rfl⟩ : ∃ m, n = m + 1 := Nat.exists_eq_add_one.2 some_return
    rw [l.code_eq, code, List.replicate_succ]
    rfl
  · -- In front of the mark of this address there are the returns, and the entry, which takes no room.
    have split : l.object.code = (.marker entry :: (List.replicate n (Code.jump (.label exit))).flatten) ++
        .marker exit :: Code.jump (.imm halt) := code
    have position := l.position_eq split rfl
    rw [Layout.room_cons_of_isMarker rfl, room_returns] at position
    rw [l.toInt_address position]
    omega

/-- 32768 returns are accepted, and their address does not fit a word. -/
theorem returning_too_far : ∃ image, (returning 32768).link {} = .ok image ∧ ¬ image.Fits 65536 := by
  obtain ⟨image, links⟩ := returning_links 32768 {}
  have short : image.Addressable := by
    have length := returning_length links
    show image.code.length < 2147483648
    omega
  obtain ⟨address, first, value⟩ := returning_first (by decide) links short
  refine ⟨image, links, fun fits => ?_⟩
  rcases fits _ (List.mem_of_getElem? first) address (List.mem_singleton_self _) with stops | ⟨-, low⟩
  · have below : halt.toInt = -1 := rfl
    rw [stops, below] at value
    omega
  · omega

end Returning

end Program

end GridStack
