import GridStack.Proofs.Draft.Alphabet
import GridStack.Proofs.Image.Closure

/-!
# Every linked instruction is well-formed

What single instructions of a linked program look like (`Program.link_well_formed`): which operations there
are, with how many operands, which registers they name, and which numbers they push. No image contains a
marker, or an access to the frame.

An instruction of an image stands at a `Spot`, and so it is one that the code of its function may contain
(`Linked.exists_drafted`). The rest is a matter of cases on `Site.Admits`; only the number that stops the
machine has to be looked at with its neighbour.
-/

namespace GridStack

open Layout (resolve room)

namespace Instruction

/-- The operands of an instruction that are registers, when it has no business with the frame. -/
def registers (i : Instruction) : List Int32 :=
  match i.op with
  | .push | .pop | .copy | .jumpIf => i.operands
  | _ => []

/-- An instruction that a function with a number of variables can contain. -/
structure WellFormed (vars : Nat) (i : Instruction) : Prop where
  /-- It is no marker, and has no business with the frame. -/
  effect : i.op ≠ .noop ∧ i.op ≠ .load ∧ i.op ≠ .store
  first : i.a.isSome ↔ 1 ≤ i.op.arity
  second : i.b.isSome ↔ i.op.arity = 2
  /-- There are such registers, and those of variables are those of the function. -/
  range : ∀ r ∈ i.registers, 0 ≤ r.toInt ∧ r.toInt ≤ 7 ∧ r.toInt < 3 + vars
  push_source : i.op = .push → i.a ≠ some Register.pc
  copy_source : i.op = .copy → i.b ≠ some Register.pc
  copy_dest : i.op = .copy → i.a ≠ some Register.pc

namespace WellFormed

variable {vars : Nat} {n r s : Int32}

/-- A constant has one operand. -/
theorem exists_const {i : Instruction} (h : i.WellFormed vars) (const : i.op = .const) :
    ∃ n, i = ⟨.const, some n, none⟩ := by
  obtain ⟨op, a, b⟩ := i
  obtain rfl : op = .const := const
  have one : Opcode.const.arity = 1 := rfl
  obtain ⟨n, rfl⟩ : ∃ n, a = some n := Option.isSome_iff_exists.1 (h.first.2 (Nat.le_of_eq one))
  have single : ¬ b.isSome := fun two => absurd (one.symm.trans (h.second.1 two)) (by decide)
  rw [Option.not_isSome_iff_eq_none.1 single]
  exact ⟨n, rfl⟩

/-- A constant. -/
theorem const : WellFormed vars ⟨.const, some n, none⟩ :=
  ⟨⟨nofun, nofun, nofun⟩, by simp [Opcode.arity], by simp [Opcode.arity], List.forall_mem_nil _, nofun, nofun,
    nofun⟩

/-- An instruction on a register. -/
theorem register {op : Opcode} (known : op = .push ∨ op = .pop ∨ op = .jumpIf)
    (range : 0 ≤ r.toInt ∧ r.toInt ≤ 7 ∧ r.toInt < 3 + vars) (source : op = .push → r ≠ Register.pc) :
    WellFormed vars ⟨op, some r, none⟩ := by
  have pushes : op = .push → (some r : Option Int32) ≠ some Register.pc :=
    fun push same => source push (Option.some.inj same)
  have ranges : ∀ r' ∈ [r], 0 ≤ r'.toInt ∧ r'.toInt ≤ 7 ∧ r'.toInt < 3 + vars :=
    List.forall_mem_singleton.2 range
  rcases known with rfl | rfl | rfl <;>
    exact ⟨⟨nofun, nofun, nofun⟩, by simp [Opcode.arity], by simp [Opcode.arity], ranges, pushes, nofun, nofun⟩

/-- A move from one register to another. -/
theorem copy (dest : 1 ≤ r.toInt ∧ r.toInt ≤ 7 ∧ r.toInt < 3 + vars)
    (source : 1 ≤ s.toInt ∧ s.toInt ≤ 7 ∧ s.toInt < 3 + vars) :
    WellFormed vars ⟨.copy, some r, some s⟩ := by
  have other : ∀ {r : Int32}, 1 ≤ r.toInt → (some r : Option Int32) ≠ some Register.pc := by
    rintro r positive ⟨⟩
    exact absurd positive (by decide)
  refine ⟨⟨nofun, nofun, nofun⟩, by simp [Opcode.arity], by simp [Opcode.arity], ?_, nofun,
    fun _ => other source.1, fun _ => other dest.1⟩
  refine List.forall_mem_cons.2 ⟨⟨by omega, dest.2⟩, List.forall_mem_singleton.2 ⟨by omega, source.2⟩⟩

/-- An instruction without operands. -/
theorem plain {op : Opcode} (bare : op.arity = 0) (effect : op ≠ .noop) :
    WellFormed vars ⟨op, none, none⟩ := by
  cases op with
  | noop => exact absurd rfl effect
  | const | push | pop | load | store | copy | jumpIf => contradiction
  | input | output | add | mult | and | or | xor | lshift | rshift | not | equals | lessThan =>
    exact ⟨by decide, by decide, by decide, List.forall_mem_nil _, nofun, nofun, nofun⟩

end WellFormed

end Instruction

/-- What is kept of the code of a function is well-formed. -/
theorem Site.Admits.wellFormed {site : Site} {may : String → Prop} {limit : Nat} {i : Instr}
    (h : site.Admits may limit i) (few : site.function.vars.length ≤ maxVariables)
    (kept : i.isMarker = false) (address : Label → Int32) :
    (resolve address i).WellFormed site.function.vars.length := by
  -- Of all registers the program counter is the only one that code may write and not read.
  have named : ∀ {r : Int32}, site.Names r →
      1 ≤ r.toInt ∧ r.toInt ≤ 7 ∧ r.toInt < 3 + site.function.vars.length := by
    intro r names
    obtain ⟨low, high⟩ := names.range few
    unfold maxVariables at few
    omega
  have range : ∀ {r : Int32}, site.Names r →
      0 ≤ r.toInt ∧ r.toInt ≤ 7 ∧ r.toInt < 3 + site.function.vars.length :=
    fun names => ⟨Int.le_trans (by decide) (named names).1, (named names).2⟩
  cases h with
  | marker label => contradiction
  | number | offset | own | entry | halt => exact .const
  | push source =>
    refine .register (.inl rfl) (range source) fun _ => ?_
    rintro ⟨⟩
    exact absurd (named source).1 (by decide)
  | pop dest =>
    refine .register (.inr (.inl rfl)) ?_ nofun
    rcases dest with rfl | dest
    · have counter : Register.pc.toInt = 0 := rfl
      show 0 ≤ Register.pc.toInt ∧ Register.pc.toInt ≤ 7 ∧ Register.pc.toInt < _
      omega
    · exact range dest
  | copy dest source => exact .copy (named dest) (named source)
  | jumpIf => exact .register (.inr (.inr rfl)) (range (.inr (.inl rfl))) nofun
  | plain bare effect => exact .plain bare effect

namespace Program

/-- The instructions of an image are well-formed one by one. -/
structure WellFormed (program : Program) (image : Image) : Prop where
  /-- Every instruction is in the segment of a function, and one that this function can contain. -/
  instructions : ∀ k i, image.code[k]? = some i → ∃ s ∈ image.segments, s.Covers k ∧
    ∃ decl ∈ program.functions, decl.name = s.name ∧ i.WellFormed decl.names.length
  /-- Numbers are not negative, except the one that stops the machine, which is jumped to at once. -/
  constants : ∀ k n, image.code[k]? = some ⟨.const, some n, none⟩ → 0 ≤ n.toInt ∨
    (n = halt ∧ image.code[k + 1]? = some ⟨.pop, some Register.pc, none⟩)

namespace Linked

variable {program : Program} {options : Options} {image : Image} {l : Linked program options image}

/-- The instructions of a function are those that its code may contain. -/
theorem Part.admits {s : Segment} (p : l.Part s) {i : Instr} (mem : i ∈ p.routine.code) :
    p.site.Admits p.Calls (room p.routine.code) i :=
  p.code.written (l.few_of_mem p.mem).2 (Nat.le_succ _) i mem

/-- A function has no more instructions than the image. -/
theorem Part.room_le {s : Segment} (p : l.Part s) : room p.routine.code ≤ image.code.length := by
  have stop := p.stop_le
  rw [p.stop_eq] at stop
  omega

/-- The variables of the function of a segment are those of a declared one of its name. -/
theorem Part.exists_decl {s : Segment} (p : l.Part s) :
    ∃ decl ∈ program.functions, decl.name = s.name ∧ decl.names = p.f.vars := by
  have mem := p.mem
  have named := p.named
  rw [l.functions_declared] at mem
  obtain ⟨decl, declared, same⟩ := List.mem_map.1 mem
  rw [← same] at named
  exact ⟨decl, declared, named, congrArg CheckedFunction.vars same⟩

/-- An instruction of an image has been drafted in the code of the function to whose segment it belongs. -/
theorem exists_drafted (l : Linked program options image) {k : Nat} {i : Instruction}
    (found : image.code[k]? = some i) : ∃ (p : l.Spot k) (drafted : Instr),
      i = resolve l.address drafted ∧ (Code.kept l.object.code)[k]? = some drafted ∧
        drafted.isMarker = false ∧ p.part.site.Admits p.part.Calls (room p.part.routine.code) drafted := by
  obtain ⟨p⟩ := l.exists_spot (List.getElem?_eq_some_iff.1 found).1
  obtain ⟨drafted, listed, kept, code⟩ := p.exists_instr
  have unmarked := List.of_mem_filter (List.mem_of_getElem? kept)
  refine ⟨p, drafted, Option.some.inj (found.symm.trans code), kept, ?_, p.part.admits (p.mem_code listed)⟩
  rwa [Bool.not_eq_true'] at unmarked

/-- The number that stops the machine is jumped to at once. -/
theorem Spot.halt_jumps {k : Nat} (p : l.Spot k) (found : image.code[k]? = some ⟨.const, some halt, none⟩) :
    image.code[k + 1]? = some ⟨.pop, some Register.pc, none⟩ := by
  obtain ⟨i, listed, -, code⟩ := p.exists_instr
  have drafted : ⟨.const, some halt, none⟩ = resolve l.address i := Option.some.inj (found.symm.trans code)
  have position := p.here
  rcases p.kind with ⟨inner, -⟩ | ⟨ending, -⟩
  · -- Inside a function no operand is this number.
    have absent := halt_not_mem l.halt_ne_address inner i (List.mem_of_getElem? listed)
    rw [← drafted] at absent
    exact absurd List.mem_cons_self absent
  · rw [p.part.ending_eq] at ending
    have two : p.idiom.code.length = 2 := by
      rw [ending]
      split <;> rfl
    have inside := p.inside
    rcases Nat.le_one_iff_eq_zero_or_eq_one.1 (by omega : p.m ≤ 1) with zero | one
    · rw [position, zero, Nat.add_assoc, Nat.zero_add, p.code_getElem? (by omega), ending]
      split <;> rfl
    · -- The second instruction of an end is no constant.
      rw [one, ending] at listed
      split at listed <;> cases listed <;> cases drafted

/-- The number that a constant pushes is a word or the position of an instruction, unless it is the one that
stops the machine. -/
theorem constant_cases (l : Linked program options image) {k : Nat} {n : Int32}
    (found : image.code[k]? = some ⟨.const, some n, none⟩) :
    (0 ≤ n.toInt ∧ (n.toInt ≤ 65535 ∨ n.toInt < image.code.length)) ∨
      (n = halt ∧ image.code[k + 1]? = some ⟨.pop, some Register.pc, none⟩) := by
  obtain ⟨p, drafted, eq, kept, unmarked, admits⟩ := l.exists_drafted found
  have short : image.code.length < 2147483648 := l.short
  -- A label that is named has been placed in the code.
  have placed : ∀ label, drafted = .constant (.label label) → 0 ≤ n.toInt ∧ n.toInt < image.code.length := by
    rintro label rfl
    have named : l.object.labelAt? k = some label := by
      rw [Object.labelAt?, kept]
      rfl
    obtain ⟨t, position, inside⟩ := exists_position named
    obtain rfl : n = l.address label := Option.some.inj (congrArg Instruction.a eq)
    rw [l.toInt_address position]
    omega
  cases admits with
  | marker label => contradiction
  | number low high =>
    cases eq
    exact .inl ⟨low, .inl high⟩
  | offset low high =>
    -- An offset counts words, for each of which there is an instruction that puts it on the stack.
    have le := p.part.room_le
    obtain rfl : n = Int32.ofInt _ := Option.some.inj (congrArg Instruction.a eq)
    rw [Int32.toInt_ofInt_of_le (by omega) (by omega)]
    exact .inl ⟨low, .inr (by omega)⟩
  | own own =>
    obtain ⟨low, high⟩ := placed _ rfl
    exact .inl ⟨low, .inr high⟩
  | entry entry =>
    obtain ⟨low, high⟩ := placed _ rfl
    exact .inl ⟨low, .inr high⟩
  | halt main =>
    cases eq
    exact .inr ⟨rfl, p.halt_jumps found⟩
  | plain bare effect =>
    obtain rfl : Opcode.const = _ := congrArg Instruction.op eq
    contradiction
  | push | pop | copy | jumpIf => cases eq

end Linked

/-- Every instruction of a linked program is well-formed. -/
theorem link_well_formed {program : Program} {options : Options} {image : Image}
    (links : program.link options = .ok image) (short : image.Addressable) : program.WellFormed image := by
  obtain ⟨l⟩ := link_ok links short
  constructor
  · intro k i found
    obtain ⟨p, drafted, rfl, -, unmarked, admits⟩ := l.exists_drafted found
    obtain ⟨decl, declared, named, vars⟩ := p.part.exists_decl
    refine ⟨p.s, p.mem, p.covers_here, decl, declared, named, ?_⟩
    rw [vars]
    exact admits.wellFormed (l.few_of_mem p.part.mem).1 unmarked l.address
  · intro k n found
    exact (l.constant_cases found).imp_left And.left

/-- The instructions of a program with calls and a loop. -/
theorem link_well_formed_winding : ∃ image, winding.link {} = .ok image ∧ image.Addressable ∧
    winding.WellFormed image := by
  obtain ⟨image, links, short⟩ : ∃ image, winding.link {} = .ok image ∧ image.Addressable :=
    ⟨⟨_, _⟩, by cbv, by decide⟩
  exact ⟨image, links, short, link_well_formed links short⟩

end Program

end GridStack
