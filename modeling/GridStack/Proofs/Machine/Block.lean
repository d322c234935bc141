import GridStack.Proofs.Machine.Path
import GridStack.Proofs.Machine.View

/-!
# Blocks and jumps

How a machine runs code at its place (`Layout.Laid`): `block_path` runs a block of instructions without
jumps, of which `advance_of_exec` is one instruction, and `jump_path`, `advance_of_popPc` and
`advance_of_jumpIf` are the jumps. Each leads from a machine that shows a view at the place of the code to
one that shows the view behind it.
-/

namespace GridStack

namespace Machine

open Layout (Laid Stands room resolve)

variable {m : Machine} {grid : Grid} {floor : List Int64} {v v' : View}

/-- The address behind code. -/
def place (front : List Instr) : Int64 :=
  Int64.ofNat (room front)

/-- A machine on the way through a block: the stack goes on below the view, and the program counter points
between two positions. -/
def Within (floor : List Int64) (first last : Nat) (m : Machine) : Prop :=
  floor <:+ m.stack.values ∧ ∃ n, first ≤ n ∧ n ≤ last ∧ m.pc = Int64.ofNat n

section Laid

variable {all front block : List Instr} {code : Array Instruction} {address : Label → Int32}

/-- A machine at the place of an instruction fetches it. -/
theorem fetch?_of_stands (laid : Laid all code address) {instr : Instr}
    (stands : Stands all front (instr :: block)) (kept : instr.isMarker = false)
    (pc : m.pc = place front) : m.fetch? code = some (resolve address instr) := by
  obtain ⟨back, split⟩ := stands.split
  have fetched := laid.fetch split kept
  -- So small a position is the same number in a register of 64 bits.
  have small : room front < 2147483648 := by
    obtain ⟨lt, -⟩ := Array.getElem?_eq_some_iff.1 fetched
    exact Nat.lt_trans lt laid.short
  unfold Machine.fetch?
  rw [pc, place, Int64.toInt_ofNat_of_lt (by omega), if_pos (by omega), Int.toNat_natCast]
  exact fetched

/-- An instruction takes the room of one. -/
theorem room_append_kept (front : List Instr) {instr : Instr} (kept : instr.isMarker = false) :
    room (front ++ [instr]) = room front + 1 := by
  rw [Layout.room_append, Layout.room_cons_of_not_isMarker kept, Layout.room_nil]

/-- The address behind an instruction is one more than that in front of it. -/
theorem place_append_kept {instr : Instr} (kept : instr.isMarker = false) :
    place (front ++ [instr]) = place front + 1 := by
  unfold place
  rw [room_append_kept front kept, Int64.ofNat_add]
  rfl

/-- A marker changes nothing and takes no room, so what stands behind it is at the same address. -/
theorem Shows.past_marker {instr : Instr} (h : m.Shows grid (place front) floor v)
    (marker : instr.isMarker = true) (hv : v.exec address grid instr = some v') :
    room (front ++ [instr]) = room front ∧ m.Shows grid (place (front ++ [instr])) floor v' := by
  have room_eq : room (front ++ [instr]) = room front := by
    rw [Layout.room_append, Layout.room_cons_of_isMarker marker]
    rfl
  refine ⟨room_eq, ?_⟩
  unfold Instr.isMarker at marker
  unfold View.exec at hv
  rw [eq_of_beq marker] at hv
  cases hv
  unfold place at h ⊢
  rwa [room_eq]

/-- A machine that has begun a step shows the same view one place further on. -/
theorem Shows.begun {pc : Int64} (h : m.Shows grid pc floor v) : m.begun.Shows grid (pc + 1) floor v := by
  unfold Machine.begun
  rw [h.pc_eq]
  exact h.setPc (pc + 1) (m.steps + 1)

/-- A step executes the instruction at the place of the machine, on a machine that shows the same view. -/
theorem advance?_of_stands (laid : Laid all code address) {instr : Instr}
    (stands : Stands all front (instr :: block)) (kept : instr.isMarker = false)
    (h : m.Shows grid (place front) floor v) :
    ∃ start : Machine, start.Shows grid (place (front ++ [instr])) floor v ∧
      ∀ next, start.Executes (resolve address instr) next → m.advance? code = some next := by
  rw [place_append_kept kept]
  exact ⟨m.begun, h.begun, fun next executes =>
    advance?_iff_executes.2 ⟨_, fetch?_of_stands laid stands kept h.pc_eq, executes⟩⟩

/-- One instruction of a block. -/
theorem advance_of_exec (laid : Laid all code address) {instr : Instr}
    (stands : Stands all front (instr :: block)) (kept : instr.isMarker = false)
    (h : m.Shows grid (place front) floor v) (hv : v.exec address grid instr = some v') :
    ∃ next, m.advance? code = some next ∧ next.Shows grid (place (front ++ [instr])) floor v' := by
  obtain ⟨start, shows, advances⟩ := advance?_of_stands laid stands kept h
  obtain ⟨next, executes, shows⟩ := executes_of_exec shows kept hv
  exact ⟨next, advances next executes, shows⟩

/-- A block runs from its start to its end and touches nothing below the view. -/
theorem block_path (laid : Laid all code address) (stands : Stands all front block)
    (h : m.Shows grid (place front) floor v) (hv : v.run address grid block = some v') :
    ∃ last, Path code (Within floor (room front) (room (front ++ block))) (room block) m last ∧
      last.Shows grid (place (front ++ block)) floor v' := by
  induction block generalizing front m v with
  | nil =>
    cases hv
    rw [List.append_nil]
    exact ⟨m, .here ⟨h.floor_suffix, room front, Nat.le_refl _, Nat.le_refl _, h.pc_eq⟩, h⟩
  | cons instr block ih =>
    obtain ⟨between, exec, run⟩ := Option.bind_eq_some_iff.1 hv
    have inside : Within floor (room front) (room (front ++ instr :: block)) m :=
      ⟨h.floor_suffix, room front, Nat.le_refl _, by rw [Layout.room_append]; omega, h.pc_eq⟩
    rw [List.append_cons] at inside ⊢
    cases kept : instr.isMarker with
    | true =>
      obtain ⟨room_eq, shows⟩ := h.past_marker kept exec
      obtain ⟨last, path, shows⟩ := ih stands.tail shows run
      rw [Layout.room_cons_of_isMarker kept]
      rw [room_eq] at path
      exact ⟨last, path, shows⟩
    | false =>
      -- Any other instruction is one step, and the positions of the rest are further on.
      have room_eq := room_append_kept front kept
      obtain ⟨next, advances, shows⟩ := advance_of_exec laid stands kept h exec
      obtain ⟨last, path, shows⟩ := ih stands.tail shows run
      rw [Layout.room_cons_of_not_isMarker kept]
      refine ⟨last, .step inside advances (path.mono ?_), shows⟩
      rintro m ⟨suffix, n, above, below, pc⟩
      exact ⟨suffix, n, by omega, below, pc⟩

/-- A pop into the program counter is a jump to the top of the stack. -/
theorem advance_of_popPc (laid : Laid all code address)
    (stands : Stands all front (.imm .pop Register.pc :: block))
    (h : m.Shows grid (place front) floor v) {x : Int64} {rest : List Int64}
    (top : v.stack = x :: rest) :
    ∃ next, m.advance? code = some next ∧ next.Shows grid x floor { v with stack := rest } := by
  obtain ⟨start, shows, advances⟩ := advance?_of_stands laid stands rfl h
  obtain ⟨stack, popped, shows⟩ := shows.pop top
  exact ⟨_, advances _ (.pop popped place?_pc), shows.setPc x start.steps⟩

/-- A jump goes to the address of its target. -/
theorem jump_path (laid : Laid all code address) {target : Operand}
    (stands : Stands all front ([.constant target, .imm .pop Register.pc] ++ block))
    (h : m.Shows grid (place front) floor v) :
    ∃ last, Path code (fun m => floor <:+ m.stack.values) 2 m last ∧
      last.Shows grid (Layout.resolved address target).toInt64 floor v := by
  obtain ⟨between, advances, shows⟩ := advance_of_exec laid stands rfl h rfl
  obtain ⟨last, advances', shows'⟩ := advance_of_popPc laid stands.tail shows rfl
  exact ⟨last, .step h.floor_suffix advances (.single shows.floor_suffix advances' shows'.floor_suffix),
    shows'⟩

/-- A conditional jump goes to the content of the scratch register when the top of the stack is zero. -/
theorem advance_of_jumpIf (laid : Laid all code address)
    (stands : Stands all front (.imm .jumpIf Register.scratch :: block))
    (h : m.Shows grid (place front) floor v) {x target : Int64} {rest : List Int64}
    (top : v.stack = x :: rest) (scratch : v.cells.scratch = some target) :
    ∃ next, m.advance? code = some next ∧
      next.Shows grid (if x = 0 then target else place (front ++ [.imm .jumpIf Register.scratch])) floor
        { v with stack := rest } := by
  obtain ⟨start, shows, advances⟩ := advance?_of_stands laid stands rfl h
  obtain ⟨stack, popped, shows'⟩ := shows.pop top
  by_cases hx : x = 0
  · subst hx
    have known := shows.register? ((View.read_scratch _).trans scratch)
    exact ⟨_, advances _ (.jump popped known), shows'.setPc target start.steps⟩
  · rw [if_neg hx]
    exact ⟨_, advances _ (.pass popped hx), shows'⟩

end Laid

end Machine
end GridStack
