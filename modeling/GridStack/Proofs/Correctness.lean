import Mathlib
import GridStack.Program.Build
import GridStack.Proofs.Agreement
import GridStack.Proofs.Linked
import GridStack.Proofs.Machine.Stores

/-!
# Linked programs do what programs mean

`compile_correct` puts the parts together. A program that is done on its tree is done with some least
amount of fuel, and with that the evaluation on registers comes to the end of `main` with the same writes
(`Reference.run_done`). A program that never is runs out of every amount of fuel on registers too
(`Reference.run_timeout`). In either case the machine that runs the image has done the same
(`Linked.realizes`), and the limits of a run only decide how far it goes along that path. A machine that goes
on for ever makes all writes of the program, and no others: at any step it has made a front part of them
(`Linked.goes_no_further`).
-/

namespace GridStack

open Machine (Path loaded)

namespace Program

/-- Some amount of fuel is the least one with which a program is done. -/
theorem exists_least {program : Program} {grid : Grid} {fuel : Nat} {result : Option Reference.Word}
    (done : (Reference.run program grid fuel).verdict = .done result) :
    ∃ least ≤ fuel, (∃ result, (Reference.run program grid least).verdict = .done result) ∧
      ∀ n < least, ∀ result, (Reference.run program grid n).verdict ≠ .done result := by
  classical
  have some_fuel : ∃ n, ∃ result, (Reference.run program grid n).verdict = .done result :=
    ⟨fuel, result, done⟩
  exact ⟨Nat.find some_fuel, Nat.find_min' some_fuel ⟨result, done⟩, Nat.find_spec some_fuel,
    fun n less result done => Nat.find_min some_fuel less ⟨result, done⟩⟩

namespace Linked

variable {program : Program} {options : Options} {image : Image} {grid : Grid}

/-- The machine that runs a program which is done comes to a stop with the writes of the program. -/
theorem stops (l : Linked program options image) (words : Reference.Worded grid) {fuel : Nat}
    {result : Option Reference.Word}
    (done : (Reference.run program grid fuel).verdict = .done result) :
    ∃ k m, Path image.code.toArray (fun _ => True) k (loaded grid) m ∧ m.halted image.code.toArray ∧
      m.writes = (Reference.run program grid fuel).writes := by
  obtain ⟨least, le, ⟨result, done⟩, never⟩ := exists_least done
  have ended : (Reference.run program grid least).verdict ≠ .timeout := by
    intro out
    rw [done] at out
    contradiction
  rw [Reference.run_mono le ended]
  have realizes := l.realizes grid least
  rcases Reference.run_done words l.accepts never done with ⟨log, eq⟩ | eq
  · unfold outcome at realizes
    rw [eq] at realizes
    contradiction
  · unfold outcome at realizes
    rw [eq] at realizes
    obtain ⟨k, m, path, at_halt, log⟩ := realizes
    refine ⟨k, m, path.mono fun _ _ => trivial, Machine.halted_of_halt at_halt, ?_⟩
    unfold Machine.writes
    rw [log, List.reverse_reverse]

/-- The machine that runs a program which goes on makes as many steps as there is fuel, and has the writes
that the program has by then. -/
theorem goes_on (l : Linked program options image) (words : Reference.Worded grid)
    (endless : ∀ fuel, (Reference.run program grid fuel).verdict = .timeout) (fuel : Nat) :
    ∃ k m, fuel ≤ k + 1 ∧ Path image.code.toArray (fun _ => True) k (loaded grid) m ∧
      m.writes = (Reference.run program grid fuel).writes := by
  have never : ∀ n ≤ fuel, ∀ result, (Reference.run program grid n).verdict ≠ .done result := by
    intro n _ result done
    rw [endless n] at done
    contradiction
  have realizes := l.realizes grid fuel
  rcases Reference.run_timeout words l.accepts never (endless fuel) with ⟨log, eq⟩ | eq
  · unfold outcome at realizes
    rw [eq] at realizes
    contradiction
  · unfold outcome at realizes
    rw [eq] at realizes
    obtain ⟨k, m, long, path, log⟩ := realizes
    refine ⟨k, m, by omega, path.mono fun _ _ => trivial, ?_⟩
    unfold Machine.writes
    rw [log, List.reverse_reverse]

/-- A program that goes on makes no other writes than those of the program. -/
theorem goes_no_further (l : Linked program options image) (words : Reference.Worded grid)
    (endless : ∀ fuel, (Reference.run program grid fuel).verdict = .timeout) {k : Nat} {m : Machine}
    (path : Path image.code.toArray (fun _ => True) k (loaded grid) m) :
    m.writes <+: (Reference.run program grid (k + 1)).writes := by
  obtain ⟨k', m', long, path', writes⟩ := l.goes_on words endless (k + 1)
  -- The machine lies on the way to the one that has the writes of the program.
  obtain ⟨between, before, behind⟩ := path'.split (Nat.le_of_succ_le_succ long)
  obtain rfl := before.unique path
  rw [← writes]
  exact List.reverse_prefix.2 (Machine.Precedes.path behind).log_suffix

end Linked

/-- A linked program does what the program means, when the cells hold words. If the program is done, every
run with high enough limits ends by itself, and a run that ends by itself has made the writes of the
program. If the program goes on for ever, no run ends by itself, and the machine comes to make all writes
of the program and never any others: with more steps it has the writes of the program with more fuel, and
at every step a front part of these. -/
theorem compile_correct {program : Program} {options : Options} {image : Image}
    (links : program.link options = .ok image) (short : image.Addressable) {grid : Grid}
    (words : Reference.Worded grid) :
    (∀ fuel result, (Reference.run program grid fuel).verdict = .done result →
      (∃ bound : Limits, ∀ limits : Limits, bound.steps ≤ limits.steps → bound.stack ≤ limits.stack →
        ((loaded grid).run limits image).fault = none) ∧
      ∀ limits : Limits, ((loaded grid).run limits image).fault = none →
        ((loaded grid).run limits image).machine.writes = (Reference.run program grid fuel).writes) ∧
    ((∀ fuel, (Reference.run program grid fuel).verdict = .timeout) →
      (∀ limits : Limits, ((loaded grid).run limits image).fault ≠ none) ∧
      (∀ fuel, ∃ k m, fuel ≤ k + 1 ∧ Path image.code.toArray (fun _ => True) k (loaded grid) m ∧
        m.writes = (Reference.run program grid fuel).writes) ∧
      ∀ k m, Path image.code.toArray (fun _ => True) k (loaded grid) m →
        m.writes <+: (Reference.run program grid (k + 1)).writes) := by
  obtain ⟨l⟩ := link_ok links short
  constructor
  · intro fuel result done
    obtain ⟨k, m, path, stopped, writes⟩ := l.stops words done
    constructor
    · obtain ⟨bound, enough⟩ := Machine.run_of_halted path stopped
      refine ⟨bound, fun limits steps stack => ?_⟩
      rw [enough limits steps stack]
    · intro limits ended
      obtain ⟨k', path', stopped'⟩ := Machine.halted_of_run ended
      -- Two paths to a stop are one path.
      have le := path.le_of_stopped path' (Machine.advance?_of_halted stopped)
      have ge := path'.le_of_stopped path (Machine.advance?_of_halted stopped')
      obtain rfl : k = k' := Nat.le_antisymm ge le
      rw [← path.unique path', writes]
  · intro endless
    refine ⟨fun limits ended => ?_, l.goes_on words endless, fun k m => l.goes_no_further words endless⟩
    obtain ⟨k, path, stopped⟩ := Machine.halted_of_run ended
    obtain ⟨k', m, long, path', -⟩ := l.goes_on words endless (k + 2)
    have le := path.le_of_stopped path' (Machine.advance?_of_halted stopped)
    omega

/-- `void main() { output(0, 0, next(input(1, 2))); }` and `int next(int x) { return x + 1; }`. -/
def successor : Program :=
  ⟨[.procedure "main" [] [.apply "output" [.int 0, .int 0, .apply "next" [.apply "input" [.int 1, .int 2]]]],
    .function "next" ["x"] [.give (.binary .add (.var "x") (.int 1))]]⟩

/-- `void main() { while (1) { output(0, 0, 7); } }`. -/
def ticking : Program :=
  ⟨[.procedure "main" [] [.whileDo (.int 1) [.apply "output" [.int 0, .int 0, .int 7]]]]⟩

/-- The loop of the sample writes once in every round. -/
theorem run_ticking (grid : Grid) (fuel : Nat) : Reference.run ticking grid (fuel + 1)
    = ⟨(List.replicate fuel [⟨0, 0, 7⟩]).flatten, .timeout⟩ := by
  let call := Reference.function ticking grid fuel
  have endless : Reference.rounds (fun env => Reference.expr grid call env (.int 1))
      (fun env => Reference.stmt grid call fuel env (.block [.apply "output" [.int 0, .int 0, .int 7]]))
      fuel (.ofArgs [] []) = ⟨(List.replicate fuel [⟨0, 0, 7⟩]).flatten, .timeout⟩ :=
    Reference.rounds_endless rfl (by decide) rfl fuel
  show Reference.Evaluation.andThen (Reference.Evaluation.andThen
    (Reference.rounds _ _ fuel (.ofArgs [] [])) _) _ = _
  rw [endless]
  rfl

/-- The successor of a cell is written and the run ends; the other sample writes for ever. -/
theorem compile_correct_successor :
    (∃ image, successor.link {} = .ok image ∧ image.Addressable ∧ ∃ bound : Limits, ∀ limits : Limits,
      bound.steps ≤ limits.steps → bound.stack ≤ limits.stack →
        ((loaded [((1, 2), 7)]).run limits image).machine.writes = [⟨0, 0, 8⟩]) ∧
    ∃ image, ticking.link {} = .ok image ∧ image.Addressable ∧
      (∀ limits : Limits, ((loaded []).run limits image).fault ≠ none) ∧
      ∀ n, ∃ k m, n ≤ k ∧ Path image.code.toArray (fun _ => True) k (loaded []) m ∧
        m.writes = (List.replicate n [⟨0, 0, 7⟩]).flatten := by
  constructor
  · have words : Reference.Worded [((1, 2), 7)] := List.forall_mem_singleton.2 ⟨by decide, by decide⟩
    have evaluation : Reference.run successor [((1, 2), 7)] 2 = ⟨[⟨0, 0, 8⟩], .done none⟩ := by cbv
    obtain ⟨image, links, short⟩ : ∃ image, successor.link {} = .ok image ∧ image.Addressable :=
      ⟨⟨_, _⟩, by cbv, by decide⟩
    have correct := (compile_correct links short words).1 2 none (congrArg _ evaluation)
    obtain ⟨⟨bound, ends⟩, writes⟩ := correct
    refine ⟨image, links, short, bound, fun limits steps stack => ?_⟩
    rw [writes limits (ends limits steps stack), evaluation]
  · have words : Reference.Worded [] := List.forall_mem_nil _
    have endless : ∀ fuel, (Reference.run ticking [] fuel).verdict = .timeout := by
      rintro (_ | fuel)
      · rfl
      · rw [run_ticking]
    obtain ⟨image, links, short⟩ : ∃ image, ticking.link {} = .ok image ∧ image.Addressable :=
      ⟨⟨_, _⟩, by cbv, by decide⟩
    obtain ⟨never, writes, -⟩ := (compile_correct links short words).2 endless
    refine ⟨image, links, short, never, fun n => ?_⟩
    obtain ⟨k, m, long, path, eq⟩ := writes (n + 1)
    rw [run_ticking] at eq
    exact ⟨k, m, Nat.le_of_succ_le_succ long, path, eq⟩

end Program

end GridStack
