import Mathlib
import GridStack.Program.Build
import GridStack.Proofs.Linked
import GridStack.Proofs.Refinement

/-!
# Fusion keeps what a program does

The images of a program with and without fusion have different addresses, and nothing else that an
evaluation on registers could see. An address gets into a register in one way: a conditional jump leaves
its target in the scratch register, where a call that ends without a result leaves it too.

So a program is evaluated with these contents unknown. An evaluation that knows more refines this one
(`Lowered.run_below`), and so, when the evaluation that knows nothing of addresses is never stuck
(`Program.AddressFree`), it is what both images do (`fusion_preserves`). A program that uses an address as a
value tells the two apart (`fusion_shows`).
-/

namespace GridStack

namespace Lowered

/-- An evaluation of a program that knows nothing of addresses is refined by any other one. -/
theorem run_below (functions : List CheckedFunction) (grid : Grid) (residue : Nat → Option Int64)
    (fuel : Nat) :
    (run functions grid (fun _ => none) fuel).Below [] (run functions grid residue fuel) := by
  have le : (World.ofFunctions functions grid fun _ => none).Below (.ofFunctions functions grid residue) :=
    ⟨rfl, rfl, fun _ _ unknown => absurd unknown (Option.some_ne_none _).symm⟩
  exact function_refines le fuel mainName [] [] .initial .initial ⟨fun _ _ eq => eq, rfl, fun _ eq => eq⟩

end Lowered

open Machine (Path loaded)

namespace Program

/-- An evaluation of the program never uses the address that a conditional jump has left in the scratch
register. -/
def AddressFree (program : Program) (grid : Grid) : Prop :=
  ∀ functions, program.check = .ok functions →
    ∀ fuel log, Lowered.run functions grid (fun _ => none) fuel ≠ .stop .stuck log

namespace Linked

variable {program : Program} {options : Options} {image : Image} {grid : Grid}

/-- A run that ends by itself does so at the end of `main`, when addresses are not used: with enough fuel
the evaluation without addresses comes there with the same writes. -/
theorem halted_without (l : Linked program options image) (free : program.AddressFree grid)
    {limits : Limits} (ended : ((loaded grid).run limits image).fault = none) :
    ∃ bound, ∀ fuel ≥ bound, Lowered.run l.functions grid (fun _ => none) fuel
      = .stop .halted ((loaded grid).run limits image).machine.log := by
  obtain ⟨k, path, stopped⟩ := Machine.halted_of_run ended
  have no_step := Machine.advance?_of_halted stopped
  refine ⟨k + 2, fun fuel enough => ?_⟩
  have known := free l.functions l.checked fuel
  have below := Lowered.run_below l.functions grid
    (fun label => some ((l.scene grid).address ⟨label⟩).toInt64) fuel
  have realizes := l.realizes grid fuel
  unfold outcome at realizes
  generalize Lowered.run l.functions grid (fun _ => none) fuel = outcome at known below
  generalize Lowered.run l.functions grid _ fuel = outcome' at below realizes
  cases below with
  | @stuck log => exact absurd rfl (known log)
  | value _ =>
    obtain ⟨_, _, _, never⟩ := realizes
    contradiction
  | @stop reason log =>
    cases reason with
    | stuck => contradiction
    | timeout =>
      obtain ⟨n, last, long, path', -⟩ := realizes
      have le := path.le_of_stopped path' no_step
      omega
    | halted =>
      obtain ⟨n, last, path', at_halt, logs⟩ := realizes
      have le := path.le_of_stopped path' no_step
      have ge := path'.le_of_stopped path (Machine.advance?_of_halted (Machine.halted_of_halt at_halt))
      obtain rfl : n = k := Nat.le_antisymm le ge
      rw [path.unique path', logs, List.append_nil]

/-- When the evaluation without addresses comes to the end of `main`, a run with high enough limits ends by
itself. -/
theorem run_of_without (l : Linked program options image) {fuel : Nat} {log : List Write}
    (halted : Lowered.run l.functions grid (fun _ => none) fuel = .stop .halted log) :
    ∃ limits : Limits, ((loaded grid).run limits image).fault = none := by
  have below := Lowered.run_below l.functions grid
    (fun label => some ((l.scene grid).address ⟨label⟩).toInt64) fuel
  have realizes := l.realizes grid fuel
  unfold outcome at realizes
  rw [halted] at below
  generalize Lowered.run l.functions grid _ fuel = outcome at below realizes
  cases below
  obtain ⟨n, last, path, at_halt, -⟩ := realizes
  obtain ⟨bound, enough⟩ := Machine.run_of_halted (path.mono fun _ _ => trivial)
    (Machine.halted_of_halt at_halt)
  exact ⟨bound, by rw [enough bound (Nat.le_refl _) (Nat.le_refl _)]⟩

/-- The functions of a program are the same in all of its images. -/
theorem functions_eq {options' : Options} {image' : Image} (l : Linked program options image)
    (l' : Linked program options' image') : l.functions = l'.functions :=
  Except.ok.inj (l.checked.symm.trans l'.checked)

end Linked

/-- Fusion keeps what a program does that uses no address as a value: a run of the one image ends by itself
when a run of the other one does, with the same writes in the same order. -/
theorem fusion_preserves {program : Program} {fused unfused : Image}
    (links : program.link { fuse := true } = .ok fused)
    (links' : program.link { fuse := false } = .ok unfused) (short : fused.Addressable)
    (short' : unfused.Addressable) {grid : Grid} (free : program.AddressFree grid) :
    ((∃ limits : Limits, ((loaded grid).run limits fused).fault = none) ↔
      ∃ limits : Limits, ((loaded grid).run limits unfused).fault = none) ∧
    ∀ limits limits' : Limits, ((loaded grid).run limits fused).fault = none →
      ((loaded grid).run limits' unfused).fault = none →
      ((loaded grid).run limits fused).machine.writes
        = ((loaded grid).run limits' unfused).machine.writes := by
  obtain ⟨l⟩ := link_ok links short
  obtain ⟨l'⟩ := link_ok links' short'
  have same := l.functions_eq l'
  refine ⟨⟨fun ⟨limits, ended⟩ => ?_, fun ⟨limits, ended⟩ => ?_⟩, fun limits limits' ended ended' => ?_⟩
  · obtain ⟨bound, halted⟩ := l.halted_without free ended
    have there := halted bound (Nat.le_refl _)
    rw [same] at there
    exact l'.run_of_without there
  · obtain ⟨bound, halted⟩ := l'.halted_without free ended
    have there := halted bound (Nat.le_refl _)
    rw [← same] at there
    exact l.run_of_without there
  · obtain ⟨bound, halted⟩ := l.halted_without free ended
    obtain ⟨bound', halted'⟩ := l'.halted_without free ended'
    -- One amount of fuel is enough for both.
    have there := halted (max bound bound') (Nat.le_max_left _ _)
    have there' := halted' (max bound bound') (Nat.le_max_right _ _)
    rw [same, there'] at there
    obtain ⟨-, logs⟩ := Lowered.Outcome.stop.inj there
    exact congrArg List.reverse logs.symm

/-- `void main() { output(0, 0, f()); }` and `int f() { if (0) { return 1; } return 2; }`. -/
def covered : Program :=
  ⟨[.procedure "main" [] [.apply "output" [.int 0, .int 0, .apply "f" []]],
    .function "f" [] [.ifThen (.int 0) [.give (.int 1)], .give (.int 2)]]⟩

/-- Its functions. -/
def coveredFunctions : List CheckedFunction :=
  [⟨"main", 0, false, [], [.apply "output" [.int 0, .int 0, .apply "f" []]]⟩,
    ⟨"f", 0, true, [], [.ifThen (.int 0) [.give (.int 1)], .give (.int 2)]⟩]

/-- The address that the jump leaves behind is covered by the result. -/
theorem covered_addressFree : covered.AddressFree [] := by
  intro functions checked fuel log
  have known : covered.check = .ok coveredFunctions := by cbv
  rw [← Except.ok.inj (known.symm.trans checked)]
  intro stuck
  -- Both functions have their fuel from the second unit on.
  rcases fuel with _ | _ | n
  · have out : Lowered.run coveredFunctions [] (fun _ => none) 0 = .stop .timeout [] := rfl
    obtain ⟨ends, -⟩ := Lowered.Outcome.stop.inj (out.symm.trans stuck)
    contradiction
  · have out : Lowered.run coveredFunctions [] (fun _ => none) 1 = .stop .timeout [] := rfl
    obtain ⟨ends, -⟩ := Lowered.Outcome.stop.inj (out.symm.trans stuck)
    contradiction
  · have halted : Lowered.run coveredFunctions [] (fun _ => none) (n + 2) = .stop .halted [⟨0, 0, 2⟩] := rfl
    obtain ⟨ends, -⟩ := Lowered.Outcome.stop.inj (halted.symm.trans stuck)
    contradiction

/-- A function that jumps and then returns. -/
theorem fusion_preserves_covered : ∃ fused unfused : Image,
    covered.link { fuse := true } = .ok fused ∧ covered.link { fuse := false } = .ok unfused ∧
      covered.AddressFree [] ∧ ((loaded []).run {} fused).fault = none ∧
      ((loaded []).run {} unfused).fault = none ∧
      ((loaded []).run {} fused).machine.writes = ((loaded []).run {} unfused).machine.writes := by
  obtain ⟨fused, unfused, links, links', short, short', ended, ended'⟩ : ∃ fused unfused : Image,
      covered.link { fuse := true } = .ok fused ∧ covered.link { fuse := false } = .ok unfused ∧
        fused.Addressable ∧ unfused.Addressable ∧
        ((loaded []).run {} fused).fault = none ∧ ((loaded []).run {} unfused).fault = none :=
    ⟨⟨_, _⟩, ⟨_, _⟩, by cbv, by cbv, by decide, by decide, by decide +kernel, by decide +kernel⟩
  exact ⟨fused, unfused, links, links', covered_addressFree, ended, ended',
    (fusion_preserves links links' short short' covered_addressFree).2 {} {} ended ended'⟩

/-- `void main() { output(0, 0, f()); }` and `int f() { if (0) { return 1; } }`. -/
def leftover : Program :=
  ⟨[.procedure "main" [] [.apply "output" [.int 0, .int 0, .apply "f" []]],
    .function "f" [] [.ifThen (.int 0) [.give (.int 1)]]]⟩

/-- A program that writes the address that a conditional jump has left behind writes another one with
fusion than without. -/
theorem fusion_shows : ∃ fused unfused : Image, leftover.link { fuse := true } = .ok fused ∧
    leftover.link { fuse := false } = .ok unfused ∧ ((loaded []).run {} fused).fault = none ∧
      ((loaded []).run {} unfused).fault = none ∧
      ((loaded []).run {} fused).machine.writes = [⟨0, 0, 21⟩] ∧
      ((loaded []).run {} unfused).machine.writes = [⟨0, 0, 23⟩] := by
  refine ⟨⟨_, _⟩, ⟨_, _⟩, by cbv, by cbv, ?_, ?_, ?_, ?_⟩ <;> decide +kernel

end Program

end GridStack
