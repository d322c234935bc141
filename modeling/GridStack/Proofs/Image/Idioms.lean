import GridStack.Proofs.Draft.Assembly
import GridStack.Proofs.Image.Segments

/-!
# Idioms

What an image keeps of the code of a tree is a sequence of idioms, each of which does one thing: a jump,
the beginning of a call, the move of the base to a new frame, or a single instruction that leaves control
and frames alone. No instruction is part of two idioms, and so the neighbours of an instruction are known
from its idiom (`exists_idiom`).

`Composed` says that code is such a sequence, and what the labels in it are. The labels of a function come
behind those of all entries, so whether a label is an entry can be seen from its number. Besides, the
address that a call puts on the stack is followed by the move of the base before the function ends
(`Framed`); that is what tells it from a literal. The induction is over the pieces that code is assembled
from (`Composed.of_assembled`).
-/

namespace GridStack

open Layout (room)

/-- A register that control and frames do not depend on. -/
def Register.Free (r : Int32) : Prop :=
  r ≠ Register.pc ∧ r ≠ Register.base ∧ r ≠ halt

/-- Whether a register is free can be looked up. -/
instance (r : Int32) : Decidable (Register.Free r) :=
  inferInstanceAs (Decidable (_ ∧ _))

/-- The registers of variables are free. -/
theorem Register.free_ofVar {index : Nat} (low : index < 5) : Register.Free (Register.ofVar index) := by
  decide +revert

/-- An instruction that leaves control and frames alone. -/
inductive Instr.Word : Instr → Prop
  | const {n : Int32} (number : n ≠ halt) : Word (.imm .const n)
  | push {r : Int32} (free : Register.Free r) : Word (.imm .push r)
  | pop {r : Int32} (free : Register.Free r) : Word (.imm .pop r)
  | copy {r s : Int32} (free : Register.Free r) (free' : Register.Free s) : Word (.copy r s)
  | plain {op : Opcode} (bare : op.arity = 0) (effect : op ≠ .noop) : Word (.plain op)

/-- A piece of code that does one thing. -/
inductive Idiom
  | word (i : Instr)
  | jump (target : Label)
  | branch (target : Label)
  /-- The address to come back to and the base, at the beginning of a call. -/
  | back (resume : Label)
  /-- The move of the base to a new frame. -/
  | frame (offset : Int32)
  /-- The end of `main`. -/
  | halt
  /-- The end of any other function. -/
  | leave

namespace Idiom

/-- The instructions of an idiom. -/
def code : Idiom → List Instr
  | word i => [i]
  | jump target => Code.jump (.label target)
  | branch target => Code.jumpIfZero target
  | back resume => [.constant (.label resume), .imm .push Register.base]
  | frame offset =>
    [.imm .push Register.base, .imm .const offset, .plain .add, .imm .pop Register.base]
  | halt => Code.jump (.imm GridStack.halt)
  | leave => [.imm .pop Register.base, .imm .pop Register.pc]

/-- An idiom inside a function, when some labels are its own and some are entries that it may jump to. -/
def Inner (own entry : Label → Prop) : Idiom → Prop
  | word i => i.Word
  | jump target => own target ∨ entry target
  | branch target => own target
  | back resume => own resume
  | frame offset => offset ≠ GridStack.halt
  | halt => False
  | leave => False

/-- The base is moved to a new frame before a function ends. -/
def Awaited : List Idiom → Prop
  | [] => False
  | frame _ :: _ => True
  | leave :: _ => False
  | _ :: ps => Awaited ps

/-- Behind the beginning of a call the base is moved to a new frame. -/
def Framed : List Idiom → Prop
  | [] => True
  | back _ :: ps => Awaited ps ∧ Framed ps
  | _ :: ps => Framed ps

variable {own entry : Label → Prop} {ps qs : List Idiom}

/-- What comes behind does not matter any more. -/
theorem Awaited.append (h : Awaited ps) : Awaited (ps ++ qs) := by
  induction ps with
  | nil => exact h.elim
  | cons p ps ih =>
    cases p with
    | frame offset => exact trivial
    | leave => exact h.elim
    | word i => exact ih h
    | jump target => exact ih h
    | branch target => exact ih h
    | back resume => exact ih h
    | halt => exact ih h

/-- No function ends between idioms that are inside one. -/
theorem awaited_frame (inner : ∀ p ∈ ps, p.Inner own entry) (offset : Int32) :
    Awaited (ps ++ frame offset :: qs) := by
  induction ps with
  | nil => exact trivial
  | cons p ps ih =>
    obtain ⟨first, others⟩ := List.forall_mem_cons.1 inner
    cases p with
    | frame offset => exact trivial
    | leave => exact first.elim
    | word i => exact ih others
    | jump target => exact ih others
    | branch target => exact ih others
    | back resume => exact ih others
    | halt => exact ih others

/-- Two sequences in which every call moves the base. -/
theorem Framed.append (h : Framed ps) (h' : Framed qs) : Framed (ps ++ qs) := by
  induction ps with
  | nil => exact h'
  | cons p ps ih =>
    cases p with
    | back resume => exact ⟨h.1.append, ih h.2⟩
    | frame offset => exact ih h
    | leave => exact ih h
    | word i => exact ih h
    | jump target => exact ih h
    | branch target => exact ih h
    | halt => exact ih h

/-- Every instruction of a sequence stands in one of the idioms. -/
theorem exists_idiom {j : Nat} {i : Instr} (h : (ps.flatMap code)[j]? = some i) :
    ∃ before p after m, ps = before ++ p :: after ∧ j = (before.flatMap code).length + m ∧
      p.code[m]? = some i := by
  induction ps generalizing j with
  | nil => cases h
  | cons p ps ih =>
    rw [List.flatMap_cons] at h
    by_cases first : j < p.code.length
    · rw [List.getElem?_append_left first] at h
      exact ⟨[], p, ps, j, rfl, (Nat.zero_add j).symm, h⟩
    · rw [List.getElem?_append_right (Nat.le_of_not_lt first)] at h
      obtain ⟨before, q, after, m, rfl, position, found⟩ := ih h
      refine ⟨p :: before, q, after, m, rfl, ?_, found⟩
      rw [List.flatMap_cons, List.length_append]
      omega

end Idiom

/-- Code whose instructions are a sequence of idioms inside a function. -/
def Composed (own entry : Label → Prop) (code : List Instr) : Prop :=
  ∃ ps, Code.kept code = ps.flatMap Idiom.code ∧ (∀ p ∈ ps, p.Inner own entry) ∧ Idiom.Framed ps

namespace Composed

variable {own entry : Label → Prop} {front back block : List Instr} {label : Label}

/-- No code. -/
theorem nil : Composed own entry [] :=
  ⟨[], rfl, List.forall_mem_nil _, trivial⟩

/-- Code that is put together from two pieces. -/
theorem append (h : Composed own entry front) (h' : Composed own entry back) :
    Composed own entry (front ++ back) := by
  obtain ⟨ps, code_eq, inner, framed⟩ := h
  obtain ⟨qs, code_eq', inner', framed'⟩ := h'
  refine ⟨ps ++ qs, ?_, List.forall_mem_append.2 ⟨inner, inner'⟩, framed.append framed'⟩
  rw [Code.kept_append, code_eq, code_eq', List.flatMap_append]

/-- A marker takes no room. -/
theorem marker : Composed own entry [.marker label] :=
  ⟨[], rfl, List.forall_mem_nil _, trivial⟩

/-- An instruction that leaves control and frames alone. -/
theorem word {i : Instr} (h : i.Word) : Composed own entry [i] := by
  refine ⟨[.word i], ?_, List.forall_mem_singleton.2 h, trivial⟩
  cases h with
  | plain bare effect =>
    have kept : (Instr.plain _).isMarker = false := beq_eq_false_iff_ne.2 effect
    exact List.filter_cons_of_pos (by rw [kept]; rfl)
  | const number => rfl
  | push free => rfl
  | pop free => rfl
  | copy free free' => rfl

/-- A jump inside the function, or to the entry of another one. -/
theorem jump (h : own label ∨ entry label) : Composed own entry (Code.jump (.label label)) :=
  ⟨[.jump label], rfl, List.forall_mem_singleton.2 h, trivial⟩

/-- A conditional jump inside the function. -/
theorem branch (h : own label) : Composed own entry (Code.jumpIfZero label) :=
  ⟨[.branch label], rfl, List.forall_mem_singleton.2 h, trivial⟩

/-- A call: the move of the base stands behind the arguments. -/
theorem call {resume callee : Label} {offset : Int} (own_resume : own resume) (enters : entry callee)
    (in_range : Int32.ofInt offset ≠ halt) (values : Composed own entry block) :
    Composed own entry
      ([.constant (.label resume), .imm .push Register.base] ++ (block ++ Code.enter offset callee)) := by
  -- What is in front of the callee is one piece: inside it the call is never without its move of the base.
  have moved : Composed own entry (([.constant (.label resume), .imm .push Register.base] ++ block) ++
      [Instr.imm .push Register.base, .imm .const (Int32.ofInt offset), .plain .add,
        .imm .pop Register.base]) := by
    obtain ⟨ps, code_eq, inner, framed⟩ := values
    refine ⟨(.back resume :: ps) ++ [.frame (Int32.ofInt offset)], ?_, ?_, ?_⟩
    · rw [Code.kept_append, Code.kept_append, code_eq, List.flatMap_append, List.flatMap_cons]
      rfl
    · have ends : ∀ p ∈ [Idiom.frame (Int32.ofInt offset)], p.Inner own entry :=
        List.forall_mem_singleton.2 in_range
      exact List.forall_mem_append.2 ⟨List.forall_mem_cons.2 ⟨own_resume, inner⟩, ends⟩
    · exact ⟨Idiom.awaited_frame inner _, framed.append trivial⟩
  have whole := moved.append (jump (.inr enters))
  simpa only [Code.enter, List.append_assoc] using whole

end Composed

/-- A number that is not negative is not what stops the machine. -/
theorem ne_halt {n : Int32} (low : 0 ≤ n.toInt) : n ≠ halt := by
  rintro rfl
  contradiction

/-- A small offset is not what stops the machine. -/
theorem ofInt_ne_halt {n : Int} (low : 0 ≤ n) (high : n < 2147483648) : Int32.ofInt n ≠ halt := by
  refine ne_halt ?_
  rwa [Int32.toInt_ofInt_of_le (by omega) (by omega)]

section Assembled

variable {site : Site} {may : String → Prop} {limit : Nat} {block : List Instr}

/-- Control and frames do not depend on the registers that hold values. -/
theorem Site.Values.free {r : Int32} (h : site.Values r) (few : site.function.vars.length ≤ maxVariables) :
    Register.Free r := by
  rcases h with rfl | mem
  · decide
  · obtain ⟨index, inside, rfl⟩ := List.mem_map.1 mem
    exact Register.free_ofVar (index_lt_five few (List.mem_range.1 inside))

/-- What is assembled from pieces of a function is a sequence of idioms inside it. -/
theorem Composed.of_assembled (few : site.function.vars.length ≤ maxVariables) (small : limit < 2147483648)
    (h : site.Assembled may limit block) : Composed site.Own (site.Entry may) block := by
  induction h with
  | nil => exact .nil
  | append _ _ ih ih' => exact ih.append ih'
  | marker label => exact .marker
  | number low high => exact .word (.const (ne_halt low))
  | push source => exact .word (.push (source.free few))
  | pop dest => exact .word (.pop (dest.free few))
  | copy dest source => exact .word (.copy (dest.free few) (source.free few))
  | plain bare effect => exact .word (.plain bare effect)
  | jump own => exact .jump (.inl own)
  | branch own => exact .branch own
  | call own entry low high values ih => exact .call own entry (ofInt_ne_halt low (by omega)) ih

end Assembled

/-- The idiom that ends a function. -/
def Site.ending (site : Site) : Idiom :=
  if site.function.isMain then .halt else .leave

/-- The end of a function has two instructions. -/
theorem Site.length_ending (site : Site) : site.ending.code.length = 2 := by
  unfold ending
  split <;> rfl

/-- The code of a function is a sequence of idioms inside it, and its end. -/
theorem FunctionCode.composed {site : Site} {next : Nat} {entry : Label} {block : List Instr}
    (few : site.function.vars.length ≤ maxVariables)
    (params_le : site.function.params ≤ site.function.vars.length) (first : site.exit.id ≤ next)
    (small : room block < 2147483648) (h : FunctionCode site next entry block) :
    ∃ ps, Code.kept block = (ps ++ [site.ending]).flatMap Idiom.code ∧ Idiom.Framed ps ∧
      ∀ p ∈ ps, p.Inner site.Own (site.Entry fun name =>
        ∃ excess, (name, excess) ∈ Stmt.calleesOfAll site.function.body) := by
  obtain ⟨inner, rfl, assembled⟩ := h.assembled params_le first
  obtain ⟨ps, code_eq, inside, framed⟩ := Composed.of_assembled few small assembled
  refine ⟨ps, ?_, framed, inside⟩
  have ending : Code.kept (Code.leave site) = site.ending.code := by
    unfold Code.leave Site.ending
    split <;> rfl
  rw [List.flatMap_append, ← code_eq, List.flatMap_singleton, ← ending]
  simp only [Code.kept_append, Code.kept_marker, Code.kept_nil, List.nil_append]

end GridStack
