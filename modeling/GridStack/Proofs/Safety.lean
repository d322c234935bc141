import GridStack.Proofs.Image.Closure
import GridStack.Proofs.Linked

/-!
# Linked programs never go wrong

A machine that runs a linked program can always make another step, unless it has jumped to `halt`
(`Linked.progress`). For every bound the evaluation on registers with enough fuel either comes to the end
of `main`, and then the machine has stopped there, or makes more steps than the bound. So no step faults,
and a run can only be broken off by a limit (`linked_safe`).
-/

namespace GridStack

open Machine (Path loaded)

namespace Program

/-- The program counter of a machine points at an instruction of the image, or has been set to `halt`. -/
def InPlace (image : Image) (m : Machine) : Prop :=
  m.pc = halt.toInt64 ∨ (0 ≤ m.pc.toInt ∧ m.pc.toInt < image.code.length)

/-- A machine that runs a linked program has stopped at `halt`, or can make another step. -/
theorem Linked.progress {program : Program} {options : Options} {image : Image}
    (l : Linked program options image) {grid : Grid} {k : Nat} {m : Machine}
    (path : Path image.code.toArray (fun _ => True) k (loaded grid) m) :
    m.pc = halt.toInt64 ∨ ∃ next, m.advance? image.code.toArray = some next := by
  have realizes := l.realizes grid (k + 2)
  generalize l.outcome grid (k + 2) = outcome at realizes
  rcases outcome with ⟨_, _⟩ | ⟨_ | _ | _, log⟩
  · obtain ⟨_, _, _, never⟩ := realizes
    contradiction
  · obtain ⟨n, last, whole, at_halt, -⟩ := realizes
    have stopped : last.advance? image.code.toArray = none :=
      Machine.advance?_of_halted (Machine.halted_of_halt at_halt)
    rcases Nat.lt_or_eq_of_le (whole.le_of_stopped path stopped) with before | rfl
    · exact .inr (whole.advances_within path before)
    · rw [← whole.unique path]
      exact .inl at_halt
  · contradiction
  · obtain ⟨n, last, long, whole, -⟩ := realizes
    exact .inr (whole.advances_within path (by omega))

/-- A machine that runs a linked program is in place. -/
theorem Linked.inPlace {program : Program} {options : Options} {image : Image}
    (l : Linked program options image) {grid : Grid} {k : Nat} {m : Machine}
    (path : Path image.code.toArray (fun _ => True) k (loaded grid) m) : InPlace image m := by
  rcases l.progress path with at_halt | ⟨next, advances⟩
  · exact .inl at_halt
  · exact .inr (Machine.pc_of_advance? advances)

/-- A linked program never goes wrong, whatever the cells hold: in every state that a machine comes to,
the program counter has been set to `halt` or points at an instruction that does not fault, and every run
ends there or by a limit. -/
theorem linked_safe {program : Program} {options : Options} {image : Image}
    (links : program.link options = .ok image) (short : image.Addressable) (grid : Grid) :
    (∀ k m, Path image.code.toArray (fun _ => True) k (loaded grid) m →
      InPlace image m ∧ (m.pc = halt.toInt64 ∨ ∃ next, m.advance? image.code.toArray = some next)) ∧
    ∀ limits : Limits, InPlace image ((loaded grid).run limits image).machine ∧
      (((loaded grid).run limits image).fault = none ∨
        ((loaded grid).run limits image).fault = some (.stepLimit limits.steps) ∨
        ((loaded grid).run limits image).fault = some .stackLimit) := by
  obtain ⟨l⟩ := link_ok links short
  refine ⟨fun k m path => ⟨l.inPlace path, l.progress path⟩, fun limits => ?_⟩
  unfold Machine.run
  obtain ⟨k, m, -, path, ends⟩ := Machine.runFor_cases limits image.code.toArray
    (limits.steps - (loaded grid).steps) (loaded grid)
  have placed := l.inPlace path
  rcases ends with ⟨-, eq⟩ | ⟨-, -, eq⟩ | eq | ⟨stuck, running, -⟩
  · rw [eq]
    exact ⟨placed, .inl rfl⟩
  · rw [eq]
    exact ⟨placed, .inr (.inl rfl)⟩
  · rw [eq]
    exact ⟨placed, .inr (.inr rfl)⟩
  · exfalso
    rcases l.progress path with at_halt | ⟨next, advances⟩
    · exact running (Machine.halted_of_halt at_halt)
    · rw [stuck] at advances
      contradiction

/-- A program with calls and a loop, on any grid: a run is nowhere else than at an instruction or at its end,
and only a limit breaks it off. -/
theorem linked_safe_winding : ∃ image, winding.link {} = .ok image ∧ image.Addressable ∧
    ∀ (grid : Grid) (limits : Limits), InPlace image ((loaded grid).run limits image).machine ∧
      (((loaded grid).run limits image).fault = none ∨
        ((loaded grid).run limits image).fault = some (.stepLimit limits.steps) ∨
        ((loaded grid).run limits image).fault = some .stackLimit) := by
  obtain ⟨image, links, short⟩ : ∃ image, winding.link {} = .ok image ∧ image.Addressable :=
    ⟨⟨_, _⟩, by cbv, by decide⟩
  exact ⟨image, links, short, fun grid => (linked_safe links short grid).2⟩

end Program

end GridStack
