import GridStack.Proofs.Machine.Until
import GridStack.Proofs.Simulation.Pieces

/-!
# Code that keeps to its frame

What a machine does above its frame, when nothing is known of the values: only the base, what lies below the
function's own words, and the number of these words are followed. `Scene.Leads` is read: from a machine at an
address, with a base and some words above a floor, the code comes to one of the given addresses with the same
base, the same floor and another number of words, or goes on for ever, or comes to a call behind which nothing
is said. Whatever happens, what is watched on the way holds of every machine.

What is watched is a `Watch`. It is of interest at few addresses only, the entries of functions or the
address `halt`; so code is run on the assumption that none of them is inside it (`Scene.Clear`). The rules
are those of `Scene.Runs`: a block, a jump, a conditional jump, code behind other code, and words further
below that stay where they are.
-/

namespace GridStack

/-- What is watched on a run. The function of a name is under way with a base, above what lies on the stack
below its own words, only if `link` says so; and nothing is said of what comes behind a machine that `escape`
says is one to leave out. -/
structure Watch where
  inv : Machine → Prop
  escape : Machine → Prop
  link : String → Int64 → List Int64 → Prop

/-- Nothing is asked of machines at an address. -/
def Watch.Calm (w : Watch) (pc : Int64) : Prop :=
  ∀ m : Machine, m.pc = pc → w.inv m

namespace Scene

open Machine (Until place)
open Layout (Stands room resolved)

variable {s : Scene} {w : Watch} {n k takes leaves : Nat} {floor : List Int64} {base pc mid : Int64}
  {next next' : Int64 → Prop} {front block block' back : List Instr} {label : Label}

/-- A machine at an address, with a base and a number of words above a floor. -/
def At (s : Scene) (base pc : Int64) (words : Nat) (floor : List Int64) (m : Machine) : Prop :=
  ∃ stack cells, stack.length = words ∧ m.Shows s.grid pc floor ⟨base, stack, cells⟩

/-- What is watched holds at an address, for a base and a number of words above a floor. -/
def Admits (s : Scene) (w : Watch) (floor : List Int64) (base pc : Int64) (words : Nat) : Prop :=
  ∀ ⦃m : Machine⦄, s.At base pc words floor m → w.inv m

/-- From an address on, above a floor, the code takes words from the stack and comes to other addresses with
words in their place. -/
def Leads (s : Scene) (w : Watch) (n : Nat) (floor : List Int64) (base pc : Int64) (takes : Nat)
    (next : Int64 → Prop) (leaves : Nat) : Prop :=
  ∀ ⦃m : Machine⦄, s.At base pc takes floor m →
    Until s.code w.inv (fun m' => w.escape m' ∨ ∃ pc', next pc' ∧ s.At base pc' leaves floor m') n m

/-- Code that stands somewhere, and behind the first position of which nothing is watched. -/
structure Clear (s : Scene) (w : Watch) (front block : List Instr) : Prop where
  stands : Stands s.all front block
  free : ∀ p, room front < p → p ≤ room (front ++ block) → w.Calm (Int64.ofNat p)

/-- Code of which the first position is not watched either. -/
structure Quiet (s : Scene) (w : Watch) (front block : List Instr) : Prop extends s.Clear w front block where
  calm : w.Calm (place front)

namespace Clear

/-- The first part of clear code. -/
theorem left (h : s.Clear w front (block ++ block')) : s.Clear w front block := by
  refine ⟨h.stands.left, fun p after before => h.free p after ?_⟩
  rw [← List.append_assoc, Layout.room_append _ block']
  omega

/-- The second part of clear code. -/
theorem right (h : s.Clear w front (block ++ block')) : s.Clear w (front ++ block) block' := by
  refine ⟨h.stands.right, fun p after before => h.free p ?_ ?_⟩
  · rw [Layout.room_append] at after
    omega
  · rwa [← List.append_assoc]

/-- The second part of clear code, behind an instruction. -/
theorem behind (h : s.Clear w front (block ++ block')) (some_room : 0 < room block) :
    s.Quiet w (front ++ block) block' := by
  refine ⟨h.right, h.free _ ?_ ?_⟩
  · rw [Layout.room_append]
    omega
  · rw [← List.append_assoc, Layout.room_append _ block']
    omega

/-- What stands behind a conditional jump. -/
theorem past_jumpIfZero (h : s.Clear w front (Code.jumpIfZero label ++ block)) :
    s.Quiet w (front ++ Code.jumpIfZero label) block := by
  refine h.behind ?_
  rw [Code.room_jumpIfZero]
  omega

end Clear

/-- Code without instructions ends where it begins. -/
theorem place_append_of_room_eq_zero (empty : room block = 0) : place (front ++ block) = place front := by
  unfold place
  rw [Layout.room_append, empty, Nat.add_zero]

namespace Quiet

/-- The second part of quiet code. -/
theorem right (h : s.Quiet w front (block ++ block')) : s.Quiet w (front ++ block) block' := by
  rcases Nat.eq_zero_or_pos (room block) with empty | some_room
  · have same : place (front ++ block) = place front := place_append_of_room_eq_zero empty
    exact ⟨h.toClear.right, same ▸ h.calm⟩
  · exact h.toClear.behind some_room

/-- A label in front of quiet code. -/
theorem calm_label (h : s.Quiet w front (.marker label :: back)) : w.Calm (s.address label).toInt64 := by
  rw [address_eq h.stands]
  exact h.calm

end Quiet

/-- At an address that is not watched every machine is admitted. -/
theorem admits_of_calm (h : w.Calm pc) : s.Admits w floor base pc takes := by
  rintro m ⟨stack, cells, -, shows⟩
  exact h m shows.pc_eq

namespace Leads

/-- Fewer steps. -/
theorem mono (h : s.Leads w n floor base pc takes next leaves) (fewer : k ≤ n) :
    s.Leads w k floor base pc takes next leaves :=
  fun _ at_start => (h at_start).mono fewer

/-- Nothing is done. -/
theorem here (h : next pc) : s.Leads w n floor base pc takes next takes :=
  fun _ at_start => .reached (.inr ⟨pc, h, at_start⟩)

/-- Code behind other code. -/
theorem bind (h : s.Leads w n floor base pc takes next k)
    (h' : ∀ pc', next pc' → s.Leads w n floor base pc' k next' leaves) :
    s.Leads w n floor base pc takes next' leaves := by
  intro m at_start
  refine (h at_start).bind ?_
  rintro m' (escapes | ⟨pc', arrives, at_mid⟩)
  · exact .reached (.inl escapes)
  · exact h' pc' arrives at_mid

/-- Code behind code that leads to one address. -/
theorem andThen (h : s.Leads w n floor base pc takes (· = mid) k)
    (h' : s.Leads w n floor base mid k next leaves) : s.Leads w n floor base pc takes next leaves := by
  refine h.bind ?_
  rintro pc' rfl
  exact h'

/-- More addresses. -/
theorem widen (h : s.Leads w n floor base pc takes next leaves) (imp : ∀ pc', next pc' → next' pc') :
    s.Leads w n floor base pc takes next' leaves :=
  h.bind fun pc' arrives => .here (imp pc' arrives)

/-- The same address in another form. -/
theorem cast {pc' : Int64} (h : s.Leads w n floor base pc takes (· = mid) leaves) (eq : mid = pc') :
    s.Leads w n floor base pc takes (· = pc') leaves :=
  h.andThen (.here eq)

/-- Words further below stay where they are. -/
theorem frame (k : Nat)
    (h : ∀ low : List Int64, low.length = k → s.Leads w n (low ++ floor) base pc takes next leaves) :
    s.Leads w n floor base pc (takes + k) next (leaves + k) := by
  rintro m ⟨stack, cells, words, shows⟩
  -- The words count as a part of the floor, which is arbitrary in `Leads`.
  have parts : stack.take takes ++ stack.drop takes = stack := List.take_append_drop _ _
  have above : (stack.take takes).length = takes := by
    rw [List.length_take]
    omega
  have below : (stack.drop takes).length = k := by
    rw [List.length_drop]
    omega
  have raised : m.Shows s.grid pc (stack.drop takes ++ floor) ⟨base, stack.take takes, cells⟩ := by
    refine shows.reframe ?_
    rw [← List.append_assoc, parts]
  refine (h _ below ⟨_, _, above, raised⟩).bind ?_
  rintro m' (escapes | ⟨pc', arrives, stack', cells', words', shows'⟩)
  · exact .reached (.inl escapes)
  · refine .reached (.inr ⟨pc', arrives, stack' ++ stack.drop takes, cells', ?_, ?_⟩)
    · rw [List.length_append, below, words']
    · exact shows'.reframe (List.append_assoc _ _ _).symm

/-- Words on top of other words stay where they are. -/
theorem frame_above {operands : List Int64} (k : Nat)
    (h : ∀ low : List Int64, low.length = k →
      s.Leads w n (low ++ operands ++ floor) base pc takes next leaves) :
    s.Leads w n (operands ++ floor) base pc (takes + k) next (leaves + k) := by
  refine frame k fun low count => ?_
  rw [← List.append_assoc]
  exact h low count

/-- A block of code without jumps. -/
theorem of_block (clear : s.Clear w front block)
    (h : ∀ stack cells, stack.length = takes → cells.Known → ∃ stack' cells', stack'.length = leaves ∧
      View.run s.address s.grid block ⟨base, stack, cells⟩ = some ⟨base, stack', cells'⟩) :
    s.Leads w n floor base (place front) takes (· = place (front ++ block)) leaves := by
  rintro m ⟨stack, cells, words, shows⟩
  obtain ⟨stack', cells', words', run⟩ := h stack cells words shows.known
  refine Until.through s.laid clear.stands clear.free shows run fun m' shows' => ?_
  exact .reached (.inr ⟨_, rfl, stack', cells', words', shows'⟩)

/-- A jump, and what is done where it leads. -/
theorem jump {target : Operand} (clear : s.Clear w front (Code.jump target ++ back))
    (admits : s.Admits w floor base (resolved s.address target).toInt64 takes)
    (h : s.Leads w n floor base (resolved s.address target).toInt64 takes next leaves) :
    s.Leads w (n + 1) floor base (place front) takes next leaves := by
  rintro m ⟨stack, cells, words, shows⟩
  have inside : room front + 1 ≤ room (front ++ (Code.jump target ++ back)) := by
    rw [Layout.room_append, Layout.room_append, Code.room_jump]
    omega
  refine Until.jump s.laid clear.stands (clear.free _ (by omega) inside) shows fun m' shows' => ?_
  have arrives : s.At base (resolved s.address target).toInt64 takes floor m' := ⟨_, _, words, shows'⟩
  exact ⟨admits arrives, h arrives⟩

/-- A jump that is not counted. -/
theorem goto {target : Operand} (clear : s.Clear w front (Code.jump target ++ back))
    (admits : s.Admits w floor base (resolved s.address target).toInt64 takes)
    (h : s.Leads w n floor base (resolved s.address target).toInt64 takes next leaves) :
    s.Leads w n floor base (place front) takes next leaves :=
  (jump clear admits h).mono (Nat.le_succ n)

/-- A conditional jump. -/
theorem jumpIfZero (clear : s.Clear w front (Code.jumpIfZero label ++ back))
    (calm : w.Calm (s.address label).toInt64) :
    s.Leads w n floor base (place front) 1
      (fun pc => pc = (s.address label).toInt64 ∨ pc = place (front ++ Code.jumpIfZero label)) 0 := by
  rintro m ⟨stack, cells, words, shows⟩
  obtain ⟨x, rfl⟩ := List.length_eq_one_iff.1 words
  have parts : s.Clear w front ([.constant (.label label), .imm .pop Register.scratch] ++
      (.imm .jumpIf Register.scratch :: back)) := clear
  -- The target goes into the scratch register, and the jump reads it there.
  refine Until.through s.laid parts.left.stands parts.left.free shows rfl fun m₁ shows₁ => ?_
  obtain ⟨m₂, advances, shows₂⟩ := Machine.advance_of_jumpIf s.laid parts.right.stands shows₁ rfl rfl
  rw [List.append_assoc] at shows₂
  have pc_eq := shows₂.pc_eq
  refine Until.step advances ?_ (.reached (.inr ⟨_, ?_, _, _, rfl, shows₂⟩))
  · split at pc_eq
    · exact calm m₂ pc_eq
    · exact clear.past_jumpIfZero.calm m₂ pc_eq
  · split
    · exact .inl rfl
    · exact .inr rfl

end Leads

end Scene

end GridStack
