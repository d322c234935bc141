import GridStack.Image.Layout

/-!
# Placement of laid out code

`Layout.room` counts the instructions of code that an image keeps. `Layout.Laid all code address` says
that `code` is the drafted code `all` at its place: an instruction stands at the room of what is in front
of it, with every label replaced by its address, and the address of a label is the room of what is in
front of its mark. `Laid.of_ofRoutines` obtains this from a layout that succeeded with fewer than `2^31`
instructions, the bound below which a position is not changed by being an operand.

Everything behind this module speaks of positions through `Laid` only. The proof is by recursion on the
code, as `positions` and `instructions` are.
-/

namespace GridStack

/-- An image of fewer than `2^31` instructions: an operand tells its positions apart. -/
abbrev Image.Addressable (image : Image) : Prop :=
  image.code.length < 2147483648

namespace Layout

open CompileError (bind_eq_ok_iff)

/-- The number of instructions of code that an image keeps. -/
def room (code : List Instr) : Nat :=
  code.countP fun instr => !instr.isMarker

/-- No code takes no room. -/
@[simp] theorem room_nil : room [] = 0 := rfl

/-- The room of two pieces of code is the sum of theirs. -/
@[simp] theorem room_append (front back : List Instr) : room (front ++ back) = room front + room back := by
  unfold room
  rw [List.countP_append]

/-- A marker takes no room. -/
theorem room_cons_of_isMarker {instr : Instr} {code : List Instr} (h : instr.isMarker = true) :
    room (instr :: code) = room code := by
  unfold room
  rw [List.countP_cons_of_neg (by simp [h])]

/-- Any other instruction takes the room of one. -/
theorem room_cons_of_not_isMarker {instr : Instr} {code : List Instr} (h : instr.isMarker = false) :
    room (instr :: code) = room code + 1 := by
  unfold room
  rw [List.countP_cons_of_pos (by simp [h])]

/-- The position behind an instruction is that in front of it and its room. -/
theorem advance_eq (position : Nat) (instr : Instr) :
    advance position instr = position + room [instr] := by
  unfold advance
  cases h : instr.isMarker with
  | true => rw [room_cons_of_isMarker h]; rfl
  | false => rw [room_cons_of_not_isMarker h]; rfl

/-- The labels of two pieces of code are those of the first and those of the second, whose positions
begin behind the room of the first. -/
theorem positions_append (position : Nat) (front back : List Instr) :
    positions position (front ++ back)
      = positions position front ++ positions (position + room front) back := by
  induction front generalizing position with
  | nil => rfl
  | cons instr front ih =>
    have next : advance position instr + room front = position + room (instr :: front) := by
      rw [advance_eq, Nat.add_assoc, ← room_append]
      rfl
    rw [List.cons_append]
    cases h : instr.mark with
    | none => simp only [positions, h, ih, next]
    | some label => simp only [positions, h, ih, next, List.cons_append]

/-- No label is repeated exactly when all are different and none has been seen. -/
theorem repeated?_eq_none_iff (seen labels : List Label) :
    repeated? seen labels = none ↔ labels.Nodup ∧ ∀ label ∈ labels, label ∉ seen := by
  induction labels generalizing seen with
  | nil => simp [repeated?]
  | cons label labels ih =>
    unfold repeated?
    by_cases h : label ∈ seen
    · simp [h]
    · rw [if_neg h, ih]
      simp only [List.nodup_cons, List.mem_cons, not_or, forall_eq_or_imp]
      constructor
      · rintro ⟨nodup, fresh⟩
        exact ⟨⟨fun mem => (fresh label mem).1 rfl, nodup⟩, h, fun other mem => (fresh other mem).2⟩
      · rintro ⟨⟨notMem, nodup⟩, -, fresh⟩
        exact ⟨nodup, fun other mem => ⟨fun eq => notMem (eq ▸ mem), fresh other mem⟩⟩

/-- A label that is placed once is found at its place. -/
theorem lookup_positions {front back : List Instr} {instr : Instr} {label : Label}
    (nodup : ((positions 0 (front ++ instr :: back)).map Prod.fst).Nodup)
    (mark : instr.mark = some label) :
    (positions 0 (front ++ instr :: back)).lookup label = some (room front) := by
  rw [positions_append] at nodup ⊢
  simp only [positions, mark, Nat.zero_add] at nodup ⊢
  rw [List.map_append, List.map_cons, List.nodup_append] at nodup
  -- The same label does not stand in front, so the first one that is found is this one.
  have fresh : ∀ pair ∈ positions 0 front, ¬ (label == pair.1) = true := by
    intro pair mem eq
    refine nodup.2.2 pair.1 (List.mem_map_of_mem mem) label List.mem_cons_self ?_
    exact (eq_of_beq eq).symm
  rw [List.lookup_append, List.lookup_eq_none_iff.2 fun pair mem => by simpa using fresh pair mem]
  simp

/-- The operand that a number or a label stands for, when labels have addresses. -/
def resolved (address : Label → Int32) : Operand → Int32
  | .imm value => value
  | .label target => address target

/-- An instruction at its place, when labels have addresses. -/
def resolve (address : Label → Int32) (instr : Instr) : Instruction where
  op := instr.op
  a := instr.a.map (resolved address)
  b := instr.b.map (resolved address)

/-- The address of a label, zero for one that is not placed. -/
def addressIn (table : Positions) (label : Label) : Int32 :=
  Int32.ofNat ((table.lookup label).getD 0)

/-- An operand that is replaced is replaced by its address. -/
theorem operand?_ok {table : Positions} {x : Option Operand} {value : Option Int32}
    (h : operand? table x = .ok value) : value = x.map (resolved (addressIn table)) := by
  cases x with
  | none => cases h; rfl
  | some x =>
    cases x with
    | imm n => cases h; rfl
    | label target =>
      simp only [operand?, operand] at h
      cases hl : table.lookup target with
      | none => rw [hl] at h; contradiction
      | some position =>
        rw [hl] at h
        cases h
        simp [resolved, addressIn, hl]

/-- An instruction whose operands can be replaced is resolved. -/
theorem instruction_ok {table : Positions} {instr : Instr} {placed : Instruction}
    (h : instruction table instr = .ok placed) : placed = resolve (addressIn table) instr := by
  unfold instruction at h
  obtain ⟨a, first, h⟩ := bind_eq_ok_iff.1 h
  obtain ⟨b, second, h⟩ := bind_eq_ok_iff.1 h
  cases h
  rw [operand?_ok first, operand?_ok second]
  rfl

/-- Code whose operands can be replaced is resolved instruction by instruction. -/
theorem instructions_ok {table : Positions} {code : List Instr} {placed : List Instruction}
    (h : instructions table code = .ok placed) : placed = code.map (resolve (addressIn table)) := by
  induction code generalizing placed with
  | nil => cases h; rfl
  | cons instr code ih =>
    unfold instructions at h
    obtain ⟨first, replaced, h⟩ := bind_eq_ok_iff.1 h
    obtain ⟨others, replaced', h⟩ := bind_eq_ok_iff.1 h
    cases h
    rw [List.map_cons, ← instruction_ok replaced, ← ih replaced']

/-- Drafted code at its place: where instructions stand, and what the addresses of labels are. -/
structure Laid (all : List Instr) (code : Array Instruction) (address : Label → Int32) : Prop where
  /-- Every instruction that is kept has room. -/
  size : code.size = room all
  /-- Every position is an operand. -/
  short : code.size < 2147483648
  /-- An instruction stands behind the room of what is in front of it. -/
  fetch : ∀ {front back : List Instr} {instr : Instr}, all = front ++ instr :: back →
    instr.isMarker = false → code[room front]? = some (resolve address instr)
  /-- The address of a label is the room of what is in front of its mark. -/
  label : ∀ {front back : List Instr} {instr : Instr} {label : Label}, all = front ++ instr :: back →
    instr.mark = some label → (address label).toInt64 = Int64.ofNat (room front)

/-- What a layout that succeeds consists of. -/
theorem ofRoutines_ok {routines : List Routine} {image : Image}
    (h : Image.ofRoutines routines = .ok image) :
    ((positions 0 (routines.flatMap Routine.code)).map Prod.fst).Nodup ∧
      instructions (positions 0 (routines.flatMap Routine.code))
        ((routines.flatMap Routine.code).filter fun instr => !instr.isMarker) = .ok image.code := by
  unfold Image.ofRoutines at h
  cases hr : repeated? [] ((positions 0 (routines.flatMap Routine.code)).map Prod.fst) with
  | some label => simp only [hr] at h; contradiction
  | none =>
    simp only [hr] at h
    obtain ⟨code, replaced, h⟩ := bind_eq_ok_iff.1 h
    obtain ⟨names, -, h⟩ := bind_eq_ok_iff.1 h
    cases h
    exact ⟨((repeated?_eq_none_iff _ _).1 hr).1, replaced⟩

/-- A layout that succeeds with fewer than `2^31` instructions puts code at its place. -/
theorem Laid.of_ofRoutines {routines : List Routine} {image : Image}
    (h : Image.ofRoutines routines = .ok image) (short : image.Addressable) :
    Laid (routines.flatMap Routine.code) image.code.toArray
      (addressIn (positions 0 (routines.flatMap Routine.code))) := by
  obtain ⟨nodup, code_ok⟩ := ofRoutines_ok h
  have code_eq := instructions_ok code_ok
  have size : image.code.toArray.size = room (routines.flatMap Routine.code) := by
    rw [List.size_toArray, code_eq, List.length_map]
    unfold room
    rw [List.countP_eq_length_filter]
  refine ⟨size, by rwa [List.size_toArray], ?_, ?_⟩
  · intro front back instr split kept
    -- What is kept in front of the instruction is as long as its room.
    have here : (front.filter fun instr => !instr.isMarker).length = room front := by
      unfold room
      rw [List.countP_eq_length_filter]
    rw [List.getElem?_toArray, code_eq, split, List.filter_append,
      List.filter_cons_of_pos (by simp [kept]), List.map_append, List.map_cons,
      List.getElem?_append_right (by simp [here]), List.length_map, here, Nat.sub_self]
    rfl
  · intro front back instr label split mark
    rw [split] at nodup ⊢
    have found := lookup_positions nodup mark
    -- A label may stand behind all instructions, at a position that is still an operand.
    have small : room front < 2147483648 := by
      rw [List.size_toArray, split, room_append] at size
      omega
    rw [addressIn, found, Option.getD_some]
    exact Int32.toInt64_ofNat' (by rw [Int32.toInt_maxValue]; omega)

/-- A block that is part of code, behind what is in front of it. -/
def Stands (all front block : List Instr) : Prop :=
  front ++ block <+: all

namespace Stands

variable {all front block block' : List Instr} {instr : Instr}

/-- The code on both sides of an instruction. -/
theorem split (h : Stands all front (instr :: block)) : ∃ back, all = front ++ instr :: back := by
  obtain ⟨back, eq⟩ := h
  exact ⟨block ++ back, by rw [← eq]; simp⟩

/-- The first part of a block. -/
theorem left (h : Stands all front (block ++ block')) : Stands all front block := by
  refine List.IsPrefix.trans ?_ h
  rw [← List.append_assoc]
  exact List.prefix_append _ _

/-- The second part of a block. -/
theorem right (h : Stands all front (block ++ block')) : Stands all (front ++ block) block' := by
  unfold Stands at h ⊢
  rwa [List.append_assoc]

/-- What is behind the first instruction of a block. -/
theorem tail (h : Stands all front (instr :: block)) : Stands all (front ++ [instr]) block :=
  right h

end Stands

end Layout

end GridStack
