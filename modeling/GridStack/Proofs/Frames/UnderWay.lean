import GridStack.Proofs.Frames.Points
import GridStack.Proofs.Image.Segments

/-!
# The calls under way

What lies on the stack below the words of a function tells which calls are under way: its caller's base, the
address to come back to, the caller's variables, the words of the caller that were on the stack at the call,
and then what lies below the caller's words. `Program.UnderWay` reads a stack in this way and adds up the
words that the count was too high by at these calls.

Nothing is left open in this, as the address to come back to belongs to one call of one function
(`Linked.point_unique`); so a stack is read in one way only (`UnderWay.unique`).
-/

namespace GridStack

open Layout (room)

/-- The calls in the code of a function, which takes its labels from that of its end on. -/
def CheckedFunction.points (f : CheckedFunction) (exit : Nat) : List CallPoint :=
  Stmt.pointsOfAll (f.vars.length + frameWords) (exit + 1) f.body

/-- The labels of the calls of a function are its own. -/
theorem CheckedFunction.own_of_mem_points {f : CheckedFunction} {exit : Nat} {call : CallPoint}
    (mem : call ∈ f.points exit) : exit ≤ call.resume.id ∧ call.resume.id < exit + f.labels := by
  have range := (Stmt.ordered_pointsOfAll f.body (exit + 1)).range call mem
  unfold CheckedFunction.labels
  omega

/-- Two jumps with a label behind each of them, and nothing that is kept in front of only one of them, have one
label. -/
theorem Code.label_eq_of_append {more back back' : List Instr} {label label' : Label} (empty : room more = 0)
    (split : (Instr.imm .pop Register.pc :: .marker label :: back)
      = more ++ (.imm .pop Register.pc :: .marker label' :: back')) : label = label' := by
  cases more with
  | nil =>
    obtain ⟨-, markers⟩ := List.cons.inj split
    exact congrArg (fun i : Instr => i.mark.getD label) (List.cons.inj markers).1
  | cons i more =>
    obtain ⟨rfl, -⟩ := List.cons.inj split
    rw [Layout.room_cons_of_not_isMarker rfl] at empty
    omega

namespace Program

/-- The functions of a program with the numbers of the labels at their ends. -/
def numbered (program : Program) : List (String × CheckedFunction × Nat) :=
  let functions := program.functions.map FunctionDecl.checked
  Lowered.numbered (layoutOrder functions) functions.length

/-- A function is under way above words of a stack, and its base may be too high by the words that the count
was too high by at the calls under way. -/
inductive UnderWay (program : Program) (object : Object) : String → List Int64 → Nat → Prop
  | main : UnderWay program object mainName [] 0
  | call {name : String} {f : CheckedFunction} {exit excess position : Nat} {call : CallPoint} {base : Int64}
      {vars operands floor : List Int64}
      (caller : UnderWay program object name floor excess)
      (code : program.numbered.lookup name = some (f, exit))
      (part : call ∈ f.points exit)
      (resume : object.position? call.resume = some position)
      (based : base.toInt = (floor.length + excess) % 65536)
      (saved : vars.length = f.vars.length)
      (count : operands.length = call.words) :
      UnderWay program object call.name (base :: Int64.ofNat position :: (vars ++ (operands ++ floor)))
        (excess + call.excess)

namespace Linked

variable {program : Program} {options : Options} {image : Image} (l : Linked program options image)

/-- The functions as they are laid out, with the numbers of their labels. -/
theorem numbered_eq :
    Lowered.numbered (layoutOrder l.functions) l.functions.length = program.numbered := by
  rw [l.functions_declared]
  rfl

/-- Each call of a function is somewhere in the code. -/
theorem returns_of_mem_points {name : String} {f : CheckedFunction} {exit : Nat} {call : CallPoint}
    (code : program.numbered.lookup name = some (f, exit)) (part : call ∈ f.points exit) :
    Code.Returns call.resume l.object.code := by
  rw [← l.numbered_eq] at code
  obtain ⟨before, routine, after, callee, split, -, generated⟩ := compileAll_ok l.compiled code
  have returns : Code.Returns call.resume routine.code := generated.returns part
  unfold Object.code
  rw [split, List.flatMap_append, List.flatMap_cons]
  exact returns.left.right

/-- The position that a callee comes back to is the one behind the jump to the callee. -/
theorem position_of_split {front back : List Instr} {label : Label}
    (split : l.object.code = front ++ (.imm .pop Register.pc :: .marker label :: back)) :
    l.object.position? label = some (room front + 1) := by
  rw [List.append_cons] at split
  rw [l.position_eq split rfl, Layout.room_append]
  rfl

/-- Callees that come back to one position come back to one label. -/
theorem resume_unique {label label' : Label} {position : Nat} (h : Code.Returns label l.object.code)
    (h' : Code.Returns label' l.object.code) (here : l.object.position? label = some position)
    (here' : l.object.position? label' = some position) : label = label' := by
  obtain ⟨front, back, split⟩ := h
  obtain ⟨front', back', split'⟩ := h'
  rw [l.position_of_split split] at here
  rw [l.position_of_split split', ← here] at here'
  have same : room front' = room front := Nat.succ.inj (Option.some.inj here')
  rcases List.append_eq_append_iff.1 (split.symm.trans split') with ⟨more, rfl, rest⟩ | ⟨more, rfl, rest⟩
  · rw [Layout.room_append] at same
    exact Code.label_eq_of_append (by omega) rest
  · rw [Layout.room_append] at same
    exact (Code.label_eq_of_append (by omega) rest).symm

/-- The address to come back to belongs to one call of one function. -/
theorem point_unique {name name' : String} {f f' : CheckedFunction} {exit exit' position : Nat}
    {call call' : CallPoint} (code : program.numbered.lookup name = some (f, exit))
    (code' : program.numbered.lookup name' = some (f', exit')) (part : call ∈ f.points exit)
    (part' : call' ∈ f'.points exit') (resume : l.object.position? call.resume = some position)
    (resume' : l.object.position? call'.resume = some position) :
    name = name' ∧ f = f' ∧ call = call' := by
  have same : call.resume = call'.resume :=
    l.resume_unique (l.returns_of_mem_points code part) (l.returns_of_mem_points code' part') resume resume'
  have own' := CheckedFunction.own_of_mem_points part'
  rw [← same] at own'
  have one := Lowered.numbered_apart (Lowered.mem_of_lookup_numbered code) (Lowered.mem_of_lookup_numbered code')
    (CheckedFunction.own_of_mem_points part) own'
  obtain ⟨rfl, pair⟩ := Prod.mk.inj one
  obtain ⟨rfl, rfl⟩ := Prod.mk.inj pair
  exact ⟨rfl, rfl, (Stmt.ordered_pointsOfAll f.body (exit + 1)).eq_of_resume part part' same⟩

end Linked

namespace UnderWay

variable {program : Program} {options : Options} {image : Image}

/-- A stack tells which function is under way above it, and by how much its base may be too high. -/
theorem unique (l : Linked program options image) {name name' : String} {floor : List Int64}
    {excess excess' : Nat} (h : program.UnderWay l.object name floor excess)
    (h' : program.UnderWay l.object name' floor excess') : excess = excess' := by
  induction h generalizing name' excess' with
  | main =>
    cases h'
    rfl
  | @call _ f _ more position call base vars operands floor _ code part resume _ saved count ih =>
    generalize whole : base :: Int64.ofNat position :: (vars ++ (operands ++ floor)) = stack at h'
    cases h' with
    | main => contradiction
    | @call _ f' _ more' position' call' base' vars' operands' floor' caller' code' part' resume' _ saved'
        count' =>
      obtain ⟨-, behind⟩ := List.cons.inj whole
      obtain ⟨address, rest⟩ := List.cons.inj behind
      -- Positions are small, so that the address on the stack is that of one of them.
      have small := l.position_le resume
      have small' := l.position_le resume'
      have short : image.code.length < 2147483648 := l.short
      obtain rfl : position = position' := by
        have number := congrArg Int64.toInt address
        rw [Int64.toInt_ofNat_of_lt (by omega), Int64.toInt_ofNat_of_lt (by omega)] at number
        omega
      obtain ⟨rfl, rfl, rfl⟩ := l.point_unique code code' part part' resume resume'
      obtain ⟨-, below⟩ := List.append_inj rest (saved.trans saved'.symm)
      obtain ⟨-, rfl⟩ := List.append_inj below (count.trans count'.symm)
      rw [ih caller']

end UnderWay

end Program

end GridStack
