import GridStack.Image.Listing
import GridStack.Program.Build
import GridStack.Proofs.Image.Spots
import GridStack.Proofs.Machine.Path

/-!
# Annotated listings are exact

A listing finds out from the image alone which constants are positions and where control goes, although
the labels are gone. What it finds is what the labels were (`Program.link_recovers`): the positions that
it marks are those of the labels that were operands, and what it says of a pop into the program counter is
what the machine does there.

For the marks the idioms of the image are walked from the end. A constant in front of an idiom is never
taken for a position (`usesTarget_placed`): where it is an argument, what follows is the move of the base. The
constants inside the idioms are taken for what they are (`loads_idiom`); the one that needs more than its
own idiom is the address to come back to, which must not be taken for an argument, and here it counts that
the base is moved before the function ends (`startsFrame_placed`).
-/

namespace GridStack

namespace Listing

/-- What every instruction of code loads. -/
def loads : List Instruction → List (Option Nat)
  | [] => []
  | instr :: rest => target? instr rest :: loads rest

/-- The targets are what instructions load. -/
theorem targets_eq (code : List Instruction) : targets code = (loads code).reduceOption := by
  induction code with
  | nil => rfl
  | cons instr rest ih =>
    rw [targets, loads, ih]
    cases target? instr rest <;> rfl

/-- What an instruction loads depends on what is behind it. -/
theorem loads_getElem? (code : List Instruction) (k : Nat) :
    (loads code)[k]? = code[k]?.map fun instr => target? instr (code.drop (k + 1)) := by
  induction code generalizing k with
  | nil => rfl
  | cons instr rest ih =>
    cases k with
    | zero => rfl
    | succ k => exact ih k

/-- The lines of a listing: the comment of each is that on its instruction and the one in front of it. -/
theorem lines_getElem? (symbols : List Symbol) (targets : List Nat) (position k : Nat)
    (previous : Option Instruction) (code : List Instruction) :
    (lines symbols targets position previous code)[k]? = code[k]?.map fun instr =>
      banners symbols (position + k)
        ++ line targets (position + k) (if k = 0 then previous else code[k - 1]?) instr := by
  induction code generalizing position k previous with
  | nil => rfl
  | cons instr rest ih =>
    cases k with
    | zero => rfl
    | succ k =>
      rw [lines, List.getElem?_cons_succ, List.getElem?_cons_succ, ih, Nat.add_assoc, Nat.add_comm 1]
      cases k <;> rfl

variable {instr : Instruction} {rest : List Instruction}

/-- Only a constant loads a position. -/
theorem target?_of_op (h : instr.op ≠ .const) : target? instr rest = none := by
  unfold target?
  split
  · exact if_neg fun both => h both.1
  · rfl

/-- A constant in front of code that uses no target is a number. -/
theorem target?_of_not_uses (h : usesTarget rest = false) : target? instr rest = none := by
  unfold target?
  split
  · refine if_neg fun all => ?_
    rw [h] at all
    exact Bool.noConfusion all.2.1
  · rfl

/-- A constant in front of code that uses a target is a position. -/
theorem target?_of_uses {n : Int32} (uses : usesTarget rest = true) (position : 0 ≤ n) :
    target? ⟨.const, some n, none⟩ rest = some n.toInt.toNat :=
  if_pos ⟨rfl, uses, position⟩

/-- The address that stops the machine is no position. -/
theorem target?_halt : target? ⟨.const, some halt, none⟩ rest = none :=
  if_neg fun all => absurd all.2.2 (by decide)

section Idioms

open Layout (resolve)

variable (address : Label → Int32)

/-- The code of idioms at its place. -/
def placed (ps : List Idiom) : List Instruction :=
  (ps.flatMap Idiom.code).map (resolve address)

variable {address} {p : Idiom} {ps : List Idiom}

/-- The first idiom, and what is behind it. -/
theorem placed_cons : placed address (p :: ps) = p.code.map (resolve address) ++ placed address ps := by
  rw [placed, List.flatMap_cons, List.map_append]
  rfl

/-- No idiom begins with a conditional jump. -/
theorem startsWith_jumpIf (plain : ∀ p ∈ ps, p.Plain) (r : Int32) :
    startsWith .jumpIf r (placed address ps) = false := by
  cases ps with
  | nil => rfl
  | cons p ps =>
    rw [placed_cons]
    cases p with
    | word i =>
      cases plain _ List.mem_cons_self with
      | plain bare effect => exact Bool.and_false _
      | const number => rfl
      | push free => rfl
      | pop free => rfl
      | copy free free' => rfl
    | jump target => rfl
    | branch target => rfl
    | back resume => rfl
    | frame offset => rfl
    | halt => rfl
    | leave => rfl

/-- While the base is to be moved, no idiom begins with a pop into it. -/
theorem startsWith_popBase (plain : ∀ p ∈ ps, p.Plain) (awaited : Idiom.Awaited ps) :
    startsWith .pop Register.base (placed address ps) = false := by
  cases ps with
  | nil => rfl
  | cons p ps =>
    rw [placed_cons]
    cases p with
    | word i =>
      cases plain _ List.mem_cons_self with
      | pop free =>
        have other : (some _ == some Register.base) = false :=
          beq_eq_false_iff_ne.2 (mt Option.some.inj free.2.1)
        exact other
      | plain bare effect => exact Bool.and_false _
      | const number => rfl
      | push free => rfl
      | copy free free' => rfl
    | leave => exact awaited.elim
    | jump target => rfl
    | branch target => rfl
    | back resume => rfl
    | frame offset => rfl
    | halt => rfl

/-- A constant in front of an idiom is not taken for a position. -/
theorem usesTarget_placed (plain : ∀ p ∈ ps, p.Plain) : usesTarget (placed address ps) = false := by
  cases ps with
  | nil => rfl
  | cons p ps =>
    obtain ⟨first, others⟩ := List.forall_mem_cons.1 plain
    rw [placed_cons]
    cases p with
    | word i =>
      cases first with
      | const number => rfl
      | copy free free' => rfl
      | @plain op bare effect =>
        have none : ∀ op' r, startsWith op' r ([resolve address (.plain op)] ++ placed address ps) = false :=
          fun _ _ => Bool.and_false _
        rw [usesTarget]
        simp only [Idiom.code, List.map_cons, List.map_nil, none, Bool.false_and, Bool.or_self]
      | @push r free =>
        -- Only a push of the base uses the position in front of it.
        have other : (some r == some Register.base) = false :=
          beq_eq_false_iff_ne.2 (mt Option.some.inj free.2.1)
        show ((false || (false && _)) || ((true && (some r == some Register.base)) && _)) = false
        rw [other]
        rfl
      | @pop r free =>
        -- A pop uses it into the program counter, or in front of a conditional jump.
        have other : (some r == some Register.pc) = false := beq_eq_false_iff_ne.2 (mt Option.some.inj free.1)
        show (((true && (some r == some Register.pc))
          || (_ && startsWith .jumpIf Register.scratch (placed address ps))) || (false && _)) = false
        rw [other, startsWith_jumpIf others]
        simp only [Bool.and_false, Bool.false_and, Bool.or_self]
    | jump target => rfl
    | branch target => rfl
    | back resume => rfl
    | frame offset => rfl
    | halt => rfl
    | leave => rfl

/-- While the base is to be moved, a constant and a sum are not followed by a pop into the base. -/
theorem startsFrame_placed (plain : ∀ p ∈ ps, p.Plain) (awaited : Idiom.Awaited ps) :
    startsFrame (placed address ps) = false := by
  cases ps with
  | nil => rfl
  | cons p ps =>
    obtain ⟨first, others⟩ := List.forall_mem_cons.1 plain
    rw [placed_cons]
    cases p with
    | leave => exact awaited.elim
    | jump target => rfl
    | branch target => rfl
    | back resume => rfl
    | frame offset => rfl
    | halt => rfl
    | word i =>
      cases first with
      | push free => cases placed address ps <;> rfl
      | pop free => cases placed address ps <;> rfl
      | copy free free' => cases placed address ps <;> rfl
      | @plain op bare effect =>
        have number : (op == .const) = false := beq_eq_false_iff_ne.2 (by rintro rfl; contradiction)
        cases placed address ps with
        | nil => rfl
        | cons sum rest =>
          show ((op == .const) && _ && _) = false
          rw [number, Bool.false_and, Bool.false_and]
      | const number =>
        -- Of all idioms only a sum goes on like the move of the base, and behind it there is no pop yet.
        cases ps with
        | nil => rfl
        | cons q qs =>
          obtain ⟨second, behind⟩ := List.forall_mem_cons.1 others
          rw [placed_cons]
          cases q with
          | word i =>
            cases second with
            | @plain op bare effect =>
              show ((true && (op == .add && true)) && startsWith .pop Register.base (placed address qs))
                = false
              rw [startsWith_popBase behind awaited, Bool.and_false]
            | const number => rfl
            | push free => rfl
            | pop free => rfl
            | copy free free' => rfl
          | jump target => rfl
          | branch target => rfl
          | back resume => rfl
          | frame offset => rfl
          | halt => rfl
          | leave => rfl

/-- The number of an address. -/
def number (address : Label → Int32) (label : Label) : Nat :=
  (address label).toInt.toNat

/-- An idiom loads the addresses of the labels that it names, and nothing else. -/
theorem loads_idiom (positions : ∀ label, 0 ≤ address label) (plain : ∀ q ∈ p :: ps, q.Plain)
    (framed : Idiom.Framed (p :: ps)) : loads (placed address (p :: ps))
      = (p.code.map fun i => i.label?.map (number address)) ++ loads (placed address ps) := by
  obtain ⟨first, others⟩ := List.forall_mem_cons.1 plain
  have other : ∀ (op : Opcode) (a : Option Int32) (rest : List Instruction), op ≠ .const →
      target? ⟨op, a, none⟩ rest = none := fun _ _ _ silent => target?_of_op silent
  have position : ∀ (label : Label) (rest : List Instruction), usesTarget rest = true →
      target? ⟨.const, some (address label), none⟩ rest = some (number address label) :=
    fun label _ uses => target?_of_uses uses (positions label)
  rw [placed_cons]
  generalize code : placed address ps = rest
  -- What is said of each instruction of an idiom is put together to what is said of the idiom.
  cases p with
  | word i =>
    have named : none = i.label?.map (number address) := by cases first <;> rfl
    have behind : usesTarget rest = false := code ▸ usesTarget_placed others
    exact congrArg (· :: loads rest) ((target?_of_not_uses behind).trans named)
  | jump target =>
    have load := position target (⟨.pop, some Register.pc, none⟩ :: rest) rfl
    have pop := other .pop (some Register.pc) rest (by decide)
    exact congrArg₂ List.cons load (congrArg (· :: loads rest) pop)
  | branch target =>
    have load := position target
      (⟨.pop, some Register.scratch, none⟩ :: ⟨.jumpIf, some Register.scratch, none⟩ :: rest) rfl
    have pop := other .pop (some Register.scratch) (⟨.jumpIf, some Register.scratch, none⟩ :: rest)
      (by decide)
    have branch := other .jumpIf (some Register.scratch) rest (by decide)
    exact congrArg₂ List.cons load (congrArg₂ List.cons pop (congrArg (· :: loads rest) branch))
  | back resume =>
    -- The push of the base could be that of a new frame, but what follows it does not begin one.
    have argument : startsFrame rest = false := code ▸ startsFrame_placed others framed.1
    have uses : usesTarget (⟨.push, some Register.base, none⟩ :: rest) = true := by
      show (_ || (true && !startsFrame rest)) = true
      rw [argument]
      exact Bool.or_true _
    have push := other .push (some Register.base) rest (by decide)
    exact congrArg₂ List.cons (position resume _ uses) (congrArg (· :: loads rest) push)
  | frame offset =>
    -- The offset is added, and so it is a number.
    have push := other .push (some Register.base) (⟨.const, some offset, none⟩ :: ⟨.add, none, none⟩ ::
      ⟨.pop, some Register.base, none⟩ :: rest) (by decide)
    have number : target? ⟨.const, some offset, none⟩ (⟨.add, none, none⟩ ::
      ⟨.pop, some Register.base, none⟩ :: rest) = none := target?_of_not_uses rfl
    have sum := other .add none (⟨.pop, some Register.base, none⟩ :: rest) (by decide)
    have pop := other .pop (some Register.base) rest (by decide)
    exact congrArg₂ List.cons push (congrArg₂ List.cons number (congrArg₂ List.cons sum
      (congrArg (· :: loads rest) pop)))
  | halt =>
    have pop := other .pop (some Register.pc) rest (by decide)
    exact congrArg₂ List.cons target?_halt (congrArg (· :: loads rest) pop)
  | leave =>
    have base := other .pop (some Register.base) (⟨.pop, some Register.pc, none⟩ :: rest) (by decide)
    have pop := other .pop (some Register.pc) rest (by decide)
    exact congrArg₂ List.cons base (congrArg (· :: loads rest) pop)

/-- What is loaded are the addresses of the labels that are named, at the same places. -/
theorem loads_placed (positions : ∀ label, 0 ≤ address label) (plain : ∀ q ∈ ps, q.Plain)
    (framed : Idiom.Framed ps) : loads (placed address ps)
      = (ps.flatMap Idiom.code).map fun i => i.label?.map (number address) := by
  induction ps with
  | nil => rfl
  | cons p ps ih =>
    have rest : Idiom.Framed ps := by
      cases p with
      | back resume => exact framed.2
      | word i => exact framed
      | jump target => exact framed
      | branch target => exact framed
      | frame offset => exact framed
      | halt => exact framed
      | leave => exact framed
    rw [loads_idiom positions plain framed, ih (List.forall_mem_cons.1 plain).2 rest, List.flatMap_cons,
      List.map_append]

end Idioms

end Listing

namespace Machine

variable {code : Array Instruction} {m : Machine}

/-- What a machine at a position fetches. -/
theorem fetch?_of_pc {n : Nat} (short : code.size < 2147483648) (inside : n < code.size)
    (here : m.pc = Int64.ofNat n) : m.fetch? code = code[n]? := by
  have position : m.pc.toInt = n := by
    rw [here]
    exact Int64.toInt_ofNat_of_lt (by omega)
  rw [fetch?, position, if_pos (Int.natCast_nonneg n), Int.toNat_natCast]

/-- A constant is put on the stack. -/
theorem advance?_const {n : Int32} (fetched : m.fetch? code = some ⟨.const, some n, none⟩) :
    ∃ m', m.advance? code = some m' ∧ m'.pc = m.pc + 1 ∧ m'.stack = m.stack.push n.toInt64 := by
  refine ⟨_, advance?_iff_executes.2 ⟨_, fetched, .const _ _⟩, ?_, rfl⟩
  simp [Machine.push, Machine.begun, Machine.setPc, Machine.pc]

/-- A pop into the program counter goes to what is on the stack. -/
theorem advance?_popPc {stack : Stack} {word : Int64}
    (fetched : m.fetch? code = some ⟨.pop, some Register.pc, none⟩) (top : m.stack = stack.push word) :
    ∃ m', m.advance? code = some m' ∧ m'.pc = word := by
  refine ⟨_, advance?_iff_executes.2 ⟨_, fetched, .pop top place?_pc⟩, ?_⟩
  simp [Machine.pc]

/-- A machine in front of a constant and a pop into the program counter goes to the constant. -/
theorem path_of_jump {n : Nat} {target : Int32} (constant : code[n]? = some ⟨.const, some target, none⟩)
    (pop : code[n + 1]? = some ⟨.pop, some Register.pc, none⟩) (short : code.size < 2147483648)
    (here : m.pc = Int64.ofNat n) :
    ∃ m', Path code (fun _ => True) 2 m m' ∧ m'.pc = target.toInt64 := by
  have inside : n + 1 < code.size := (Array.getElem?_eq_some_iff.1 pop).1
  have fetched : m.fetch? code = some ⟨.const, some target, none⟩ :=
    (fetch?_of_pc short (by omega) here).trans constant
  obtain ⟨between, first, pc, stack⟩ := advance?_const fetched
  have behind : between.pc = Int64.ofNat (n + 1) := by
    rw [pc, here, Int64.ofNat_add]
    rfl
  have fetched' : between.fetch? code = some ⟨.pop, some Register.pc, none⟩ :=
    (fetch?_of_pc short inside behind).trans pop
  obtain ⟨m', second, at_target⟩ := advance?_popPc fetched' stack
  exact ⟨m', .step trivial first (.single trivial second trivial), at_target⟩

end Machine

namespace Image

/-- The position that the instruction at a position loads. -/
def targetAt? (image : Image) (k : Nat) : Option Nat :=
  (image.code[k]?).bind fun instr => Listing.target? instr (image.code.drop (k + 1))

/-- The comment on the instruction at a position, which its line in a listing has
(`Listing.lines_getElem?`). -/
def commentAt? (image : Image) (k : Nat) : Option String :=
  (image.code[k]?).bind (Listing.comment? (if k = 0 then none else image.code[k - 1]?))

/-- A pop into the program counter stands at a position. -/
def PopsPc (image : Image) (k : Nat) : Prop :=
  image.code[k]? = some ⟨.pop, some Register.pc, none⟩

/-- What is loaded at a position. -/
theorem targetAt?_eq (image : Image) (k : Nat) :
    image.targetAt? k = ((Listing.loads image.code)[k]?).join := by
  rw [targetAt?, Listing.loads_getElem?]
  cases image.code[k]? <;> rfl

end Image

namespace Program

/-- What the annotated listing of an image finds out, when the image is the layout of an object. -/
structure Recovers (object : Object) (image : Image) : Prop where
  /-- The positions that are marked are those of the labels that are operands. -/
  targets : ∀ t, t ∈ Listing.targets image.code ↔
    ∃ i ∈ Code.kept object.code, ∃ label ∈ i.targets, object.position? label = some t
  /-- An instruction loads the position of the label that is its operand, and none if that is a number. -/
  target : ∀ k, image.targetAt? k = (object.labelAt? k).bind object.position?
  /-- The machine is said to halt at the last instruction of `main`. -/
  halts : ∀ k, image.PopsPc k → (image.commentAt? k = some "halt" ↔
    ∃ s ∈ image.segments, s.name = mainName ∧ k + 1 = s.stop)
  /-- A function is said to return at its last instruction. -/
  returns : ∀ k, image.PopsPc k → (image.commentAt? k = some "return" ↔
    ∃ s ∈ image.segments, s.name ≠ mainName ∧ k + 1 = s.stop)
  /-- Anywhere else a jump is said to go to the position of the label in front of the pop, which is where
  every machine goes that comes to the label. -/
  jumps : ∀ k, image.PopsPc k → (∀ s ∈ image.segments, k + 1 ≠ s.stop) →
    ∃ label t, object.labelAt? (k - 1) = some label ∧ object.position? label = some t ∧
      image.commentAt? k = some ("jump " ++ toString t) ∧
      ∀ m : Machine, m.pc = Int64.ofNat (k - 1) →
        ∃ m', Machine.Path image.code.toArray (fun _ => True) 2 m m' ∧ m'.pc = Int64.ofNat t

namespace Linked

variable {program : Program} {options : Options} {image : Image} {l : Linked program options image}

/-- What is kept of several routines is a sequence of idioms, if that is so for each of them. -/
theorem exists_idioms_flatMap {routines : List Routine}
    (each : ∀ r ∈ routines, ∃ ps, Code.kept r.code = ps.flatMap Idiom.code ∧ Idiom.Framed ps ∧
      ∀ q ∈ ps, q.Plain) :
    ∃ ps, Code.kept (routines.flatMap Routine.code) = ps.flatMap Idiom.code ∧ Idiom.Framed ps ∧
      ∀ q ∈ ps, q.Plain := by
  induction routines with
  | nil => exact ⟨[], rfl, trivial, List.forall_mem_nil _⟩
  | cons r rest ih =>
    obtain ⟨first, others⟩ := List.forall_mem_cons.1 each
    obtain ⟨ps, code_eq, framed, plain⟩ := first
    obtain ⟨qs, code_eq', framed', plain'⟩ := ih others
    refine ⟨ps ++ qs, ?_, framed.append framed', List.forall_mem_append.2 ⟨plain, plain'⟩⟩
    rw [List.flatMap_cons, Code.kept_append, code_eq, code_eq', List.flatMap_append]

/-- The whole code is a sequence of idioms. -/
theorem exists_idioms (l : Linked program options image) :
    ∃ ps, Code.kept l.object.code = ps.flatMap Idiom.code ∧ Idiom.Framed ps ∧ ∀ q ∈ ps, q.Plain := by
  refine exists_idioms_flatMap fun r mem => ?_
  obtain ⟨ps, own, entry, framed, inner, code_eq⟩ := l.exists_routine_idioms mem
  refine ⟨_, code_eq, framed.append ?_, List.forall_mem_append.2 ⟨fun q mem => (inner q mem).plain, ?_⟩⟩
  · split <;> exact trivial
  · refine List.forall_mem_singleton.2 ?_
    split <;> exact trivial

/-- What instructions load are the addresses of the labels that they name. -/
theorem loads_eq (l : Linked program options image) : Listing.loads image.code
    = (Code.kept l.object.code).map fun i => i.label?.map (Listing.number l.address) := by
  obtain ⟨ps, code_eq, framed, plain⟩ := l.exists_idioms
  rw [l.code_eq, code_eq]
  exact Listing.loads_placed l.address_nonneg plain framed

/-- An instruction loads the position of its label. -/
theorem targetAt?_eq (l : Linked program options image) (k : Nat) :
    image.targetAt? k = (l.object.labelAt? k).bind l.object.position? := by
  have named : image.targetAt? k = (l.object.labelAt? k).map (Listing.number l.address) := by
    rw [image.targetAt?_eq, l.loads_eq, List.getElem?_map, Object.labelAt?]
    cases (Code.kept l.object.code)[k]? <;> rfl
  rw [named]
  cases label : l.object.labelAt? k with
  | none => rfl
  | some label =>
    obtain ⟨t, placed, -⟩ := l.exists_position label
    rw [Option.map_some, Option.bind_some, placed, Listing.number, l.toInt_address placed, Int.toNat_natCast]

/-- A label that is named in the code is the operand at some position. -/
theorem exists_labelAt? {i : Instr} (mem : i ∈ Code.kept l.object.code) {label : Label}
    (named : label ∈ i.targets) : ∃ k, l.object.labelAt? k = some label := by
  obtain ⟨k, kept⟩ := List.getElem?_of_mem mem
  have inside : k < image.code.length := by
    rw [l.length_eq, ← Code.length_kept]
    exact (List.getElem?_eq_some_iff.1 kept).1
  obtain ⟨p⟩ := l.exists_spot inside
  obtain ⟨-, rfl, -⟩ := p.of_targets kept named
  refine ⟨k, ?_⟩
  rw [Object.labelAt?, kept]
  rfl

/-- The targets of a listing are the positions of the labels that are named. -/
theorem mem_targets_iff (l : Linked program options image) (t : Nat) : t ∈ Listing.targets image.code ↔
    ∃ i ∈ Code.kept l.object.code, ∃ label ∈ i.targets, l.object.position? label = some t := by
  -- On both sides there is a position in the code that names `t`, once as a number and once as a label.
  have loaded : t ∈ Listing.targets image.code ↔ ∃ k, image.targetAt? k = some t := by
    rw [Listing.targets_eq, List.reduceOption_mem_iff, List.mem_iff_getElem?]
    refine exists_congr fun k => ?_
    rw [image.targetAt?_eq, Option.join_eq_some_iff]
  rw [loaded]
  constructor
  · rintro ⟨k, load⟩
    rw [l.targetAt?_eq, Option.bind_eq_some_iff] at load
    obtain ⟨label, named, placed⟩ := load
    obtain ⟨i, kept, first⟩ := Option.bind_eq_some_iff.1 named
    exact ⟨i, List.mem_of_getElem? kept, label, List.mem_of_head? first, placed⟩
  · rintro ⟨i, mem, label, named, placed⟩
    obtain ⟨k, found⟩ := exists_labelAt? mem named
    refine ⟨k, ?_⟩
    rw [l.targetAt?_eq, found]
    exact placed

/-- The comment on a pop into the program counter is made from the instruction in front of it. -/
theorem commentAt?_popPc {k : Nat} {previous : Instruction} (pops : image.PopsPc (k + 1))
    (before : image.code[k]? = some previous) :
    image.commentAt? (k + 1) = some (Listing.transfer (some previous)) := by
  have pops : image.code[k + 1]? = some ⟨.pop, some Register.pc, none⟩ := pops
  rw [Image.commentAt?, pops, if_neg (Nat.succ_ne_zero k), Nat.add_sub_cancel, before]
  show (if Register.pc = Register.pc then some (Listing.transfer (some previous)) else none) = _
  exact if_pos rfl

/-- A jump to a label is one to its position, which is not the address that stops the machine. -/
theorem transfer_address (l : Linked program options image) {label : Label} {t : Nat}
    (placed : l.object.position? label = some t) :
    Listing.transfer (some ⟨.const, some (l.address label), none⟩) = "jump " ++ toString t := by
  have other : some (l.address label) ≠ some halt := mt Option.some.inj (l.halt_ne_address label)
  rw [Listing.transfer, if_neg other, Option.getD_some, operandText, l.toInt_address placed]
  rfl

/-- A pop into the program counter is the end of a segment, or that of a jump inside it. -/
theorem comment_cases (l : Linked program options image) {k : Nat} (pops : image.PopsPc k) :
    (∃ s ∈ image.segments, k + 1 = s.stop ∧
      image.commentAt? k = some (if s.name = mainName then "halt" else "return")) ∨
    ∃ s ∈ image.segments, s.Covers k ∧ k + 1 < s.stop ∧
      ∃ label t, l.object.labelAt? (k - 1) = some label ∧ l.object.position? label = some t ∧
        image.commentAt? k = some ("jump " ++ toString t) ∧
        image.code[k - 1]? = some ⟨.const, some (Int32.ofNat t), none⟩ ∧ k - 1 + 1 = k := by
  obtain ⟨p⟩ := l.exists_spot (List.getElem?_eq_some_iff.1 pops).1
  obtain ⟨last, idiom⟩ := p.of_popPc pops
  have here : k = p.first + 1 := by
    have here := p.here
    omega
  have first : 0 < p.idiom.code.length := Nat.lt_of_le_of_lt (Nat.zero_le p.m) p.inside
  have drafted : image.code[p.first]? = (p.idiom.code[0]?).map (Layout.resolve l.address) :=
    p.code_getElem? first
  have pops : image.PopsPc (p.first + 1) := by rwa [← here]
  have covers : p.s.Covers (p.first + 1) := by
    rw [← here]
    exact p.covers_here
  rw [here, Nat.add_sub_cancel]
  rcases idiom with ⟨label, eq⟩ | eq | eq
  · -- The label in front of the pop has a position.
    have named : l.object.labelAt? p.first = some label := p.labelAt?_first (by rw [eq]; rfl)
    obtain ⟨t, placed, -⟩ := l.exists_position named
    have constant : image.code[p.first]? = some ⟨.const, some (l.address label), none⟩ := by
      rw [drafted, eq]
      rfl
    obtain ⟨-, inside⟩ := p.inner (by rw [eq]; nofun) (by rw [eq]; nofun)
    rw [eq] at inside
    refine .inr ⟨p.s, p.mem, covers, inside, label, t, named, placed, ?_, ?_, rfl⟩
    · rw [commentAt?_popPc pops constant, l.transfer_address placed]
    · rw [← l.address_eq placed]
      exact constant
  · -- In front of the pop stands the number that stops the machine.
    obtain ⟨stop, main⟩ := p.ending (.inl eq)
    have before : image.code[p.first]? = some ⟨.const, some halt, none⟩ := by
      rw [drafted, eq]
      rfl
    refine .inl ⟨p.s, p.mem, stop, ?_⟩
    rw [if_pos (main.1 eq)]
    exact commentAt?_popPc pops before
  · -- In front of the pop stands that of the base.
    obtain ⟨stop, main⟩ := p.ending (.inr eq)
    have before : image.code[p.first]? = some ⟨.pop, some Register.base, none⟩ := by
      rw [drafted, eq]
      rfl
    have other : p.s.name ≠ mainName := by
      intro named
      have halts := main.2 named
      rw [eq] at halts
      contradiction
    refine .inl ⟨p.s, p.mem, stop, ?_⟩
    rw [if_neg other]
    exact commentAt?_popPc pops before

/-- The last position of a segment is in it. -/
theorem covers_of_last (l : Linked program options image) {s : Segment} {k : Nat}
    (mem : s ∈ image.segments) (last : k + 1 = s.stop) : s.Covers k := by
  obtain ⟨p⟩ := l.exists_part mem
  have start := p.start_lt
  exact ⟨by omega, by omega⟩

/-- A text that is not that of a jump stands at the end of a segment. -/
theorem comment_eq_iff (l : Linked program options image) {k : Nat} {text : String}
    (other : ∀ target : String, "jump " ++ target ≠ text) (pops : image.PopsPc k) :
    image.commentAt? k = some text ↔ ∃ s ∈ image.segments,
      (if s.name = mainName then "halt" else "return") = text ∧ k + 1 = s.stop := by
  rcases l.comment_cases pops with ⟨s, mem, last, comment⟩ |
    ⟨s, mem, covers, inside, label, t, -, -, comment, -⟩
  · rw [comment, Option.some_inj]
    constructor
    · exact fun eq => ⟨s, mem, eq, last⟩
    · rintro ⟨s', mem', eq, last'⟩
      obtain rfl := l.segment_unique mem mem' (l.covers_of_last mem last) (l.covers_of_last mem' last')
      exact eq
  · rw [comment, Option.some_inj]
    constructor
    · exact fun eq => absurd eq (other _)
    · rintro ⟨s', mem', -, last'⟩
      obtain rfl := l.segment_unique mem mem' covers (l.covers_of_last mem' last')
      exact absurd last' (Nat.ne_of_lt inside)

/-- A text on a jump begins with the first letter of it. -/
theorem jump_text_ne {text : String} (first : text.toList.head? ≠ some 'j') (target : String) :
    "jump " ++ target ≠ text := by
  rintro rfl
  rw [String.toList_append] at first
  exact first rfl

end Linked

/-- The annotated listing of a program that links recovers where labels have been placed, and where control
goes. -/
theorem link_recovers {program : Program} {options : Options} {image : Image}
    (links : program.link options = .ok image) (short : image.Addressable) :
    ∃ object, program.compile options = .ok object ∧ Image.ofRoutines object.routines = .ok image ∧
      Recovers object image := by
  obtain ⟨l⟩ := link_ok links short
  refine ⟨l.object, l.compile_eq, l.laid, ⟨l.mem_targets_iff, l.targetAt?_eq, ?_, ?_, ?_⟩⟩
  · intro k pops
    rw [l.comment_eq_iff (Linked.jump_text_ne (by decide)) pops]
    refine exists_congr fun s => and_congr_right fun _ => and_congr_left fun _ => ?_
    split <;> simp [*]
  · intro k pops
    rw [l.comment_eq_iff (Linked.jump_text_ne (by decide)) pops]
    refine exists_congr fun s => and_congr_right fun _ => and_congr_left fun _ => ?_
    split <;> simp [*]
  · intro k pops elsewhere
    rcases l.comment_cases pops with ⟨s, mem, last, -⟩ |
      ⟨s, mem, -, -, label, t, named, placed, comment, constant, next⟩
    · exact absurd last (elsewhere s mem)
    · refine ⟨label, t, named, placed, comment, fun m here => ?_⟩
      have pops : image.code.toArray[k - 1 + 1]? = some ⟨.pop, some Register.pc, none⟩ := by
        rw [next, List.getElem?_toArray]
        exact pops
      rw [← List.getElem?_toArray] at constant
      obtain ⟨m', path, at_target⟩ := Machine.path_of_jump constant pops l.short here
      refine ⟨m', path, at_target.trans ?_⟩
      have le := l.position_le placed
      have short : image.code.length < 2147483648 := l.short
      exact Int32.toInt64_ofNat' (by rw [Int32.toInt_maxValue]; omega)

/-- A program with a call whose last argument is a literal, and one whose callee has no arguments. -/
def literal : Program :=
  ⟨[.procedure "main" [] [.apply "f" [.int 1], .apply "g" []],
    .procedure "f" ["a"] [.apply "output" [.var "a", .int 0, .int 1]],
    .procedure "g" [] []]⟩

/-- Of the constants in its image that stand in front of a push of the base, the literal is not taken for a
position. -/
theorem link_recovers_literal : ∃ image, literal.link {} = .ok image ∧ image.Addressable ∧
    Listing.targets image.code = [9, 19, 17, 27] ∧
      ∃ object, literal.compile {} = .ok object ∧ Image.ofRoutines object.routines = .ok image ∧
        Recovers object image := by
  obtain ⟨image, links, short, targets⟩ : ∃ image, literal.link {} = .ok image ∧ image.Addressable ∧
      Listing.targets image.code = [9, 19, 17, 27] :=
    ⟨⟨_, _⟩, by cbv, by decide, by decide +kernel⟩
  exact ⟨image, links, short, targets, link_recovers links short⟩

end Program

end GridStack
