import Mathlib
import GridStack.Program.Build
import GridStack.Proofs.Frames.Function
import GridStack.Proofs.Image.Symbols
import GridStack.Proofs.Safety

/-!
# The machine at the end of a run

A run that ends by itself has come to `halt`, and when it has not called `main` it leaves nothing behind:
the stack is empty and the base is zero (`ends_clean`). The jump to `halt` is at the end of `main` and
nowhere else, and it does not unwind what lies below. So when `main` has been called, the run ends inside
the call, and the frame of the call is still on the stack (`ends_inside_call`).
-/

namespace GridStack

open Machine (Path loaded)

namespace Program

/-- No function calls `main`. -/
def Rooted (program : Program) : Prop :=
  ∀ decl ∈ program.functions, ∀ call ∈ Stmt.calleesOfAll decl.body, call.1 ≠ mainName

/-- Whether a program is rooted can be looked up. -/
instance (program : Program) : Decidable program.Rooted :=
  inferInstanceAs (Decidable (∀ decl ∈ program.functions, ∀ call ∈ Stmt.calleesOfAll decl.body,
    call.1 ≠ mainName))

namespace Linked

variable {program : Program} {options : Options} {image : Image} (l : Linked program options image)

/-- The end of a run is watched; while no call of `main` is made, `main` is under way only once. -/
def endings (escape : Machine → Prop) : Watch where
  inv m := m.pc = halt.toInt64 → m.stack.values = [] ∧ m.base = 0
  escape := escape
  link name base floor := name = mainName → floor = [] ∧ base = 0

/-- The code of a program fits what is watched of the end of a run, if calls of `main`, whose entry is the
first position, are left out or the program has none. -/
theorem endings_guards (grid : Grid) {escape : Machine → Prop}
    (omits : program.Rooted ∨ ∀ m : Machine, m.Enters (l.scene grid).code 0 → escape m) :
    (l.scene grid).Guards (endings escape) l.functions l.table options.fuse := by
  obtain ⟨first, found_first, -, at_start⟩ := l.main grid
  have at_zero : (l.scene grid).address first.entry = 0 := by
    have same := congrArg Int64.toInt at_start
    rw [Int32.toInt_toInt64] at same
    exact Int32.toInt_inj.1 same
  constructor
  · intro name callee found
    obtain ⟨p⟩ := l.exists_placement grid found
    refine ⟨p.toHolding, ?_, ?_⟩
    · intro position _ before m pc at_halt
      exact absurd (pc.symm.trans at_halt) (ofNat_ne_halt (Nat.lt_trans before (room_lt p.stands)))
    · rintro base floor - call calls target vars operands m found' - - enters
      by_cases main : call.name = mainName
      · rcases omits with rooted | leaves_out
        · -- The function is one of the program, and the program has no such call.
          obtain ⟨decl, declared, -, same⟩ := p.exists_decl
          exact absurd main (rooted decl declared _ (same.symm ▸ Stmt.mem_calleesOfAll _ calls))
        · rw [main] at found'
          obtain rfl := Option.some.inj (found_first.symm.trans found')
          rw [at_zero] at enters
          exact .inl (leaves_out m enters)
      · exact .inr fun again => absurd again main
  · rintro name callee base floor found - m ⟨stack, cells, -, shows⟩ at_halt
    exact absurd (shows.pc_eq.symm.trans at_halt) (address_ne_halt grid found)
  · rintro base floor once m ⟨stack, cells, empty, shows⟩ -
    -- The one call of `main` under way has nothing below it.
    obtain ⟨rfl, rfl⟩ := once rfl
    rw [shows.stack_eq, List.length_eq_zero_iff.1 empty]
    exact ⟨rfl, shows.base_eq⟩

end Linked

/-- A run of a linked program that ends by itself has come to `halt`. If it has not made a call of `main`,
whose code comes first, the stack is empty and the base is zero then; and there is no such call in a run of
a program without calls of `main`. -/
theorem ends_clean {program : Program} {options : Options} {image : Image}
    (links : program.link options = .ok image) (short : image.Addressable) {grid : Grid} {limits : Limits}
    (ended : ((loaded grid).run limits image).fault = none) :
    ((loaded grid).run limits image).machine.pc = halt.toInt64 ∧
      (program.Rooted ∨
          (∀ k m, Path image.code.toArray (fun _ => True) k (loaded grid) m →
            ¬ m.Enters image.code.toArray 0) →
        ((loaded grid).run limits image).machine.stack.values = [] ∧
        ((loaded grid).run limits image).machine.base = 0) := by
  obtain ⟨l⟩ := link_ok links short
  obtain ⟨k, path, stopped⟩ := Machine.halted_of_run ended
  have at_halt : ((loaded grid).run limits image).machine.pc = halt.toInt64 := by
    rcases l.progress path with at_halt | ⟨next, advances⟩
    · exact at_halt
    · rw [Machine.advance?_of_halted stopped] at advances
      contradiction
  refine ⟨at_halt, ?_⟩
  rintro (rooted | without)
  · -- Nothing has to be left out.
    have guards : (l.scene grid).Guards (Linked.endings fun _ => False) l.functions l.table options.fuse :=
      l.endings_guards grid (.inl rooted)
    have clean := (l.watched guards (fun _ => ⟨rfl, rfl⟩) path).resolve_right fun ⟨_, _, _, never⟩ => never
    exact clean at_halt
  · have guards := l.endings_guards grid (.inr fun _ enters => enters)
    have clean := (l.watched guards (fun _ => ⟨rfl, rfl⟩) path).resolve_right
      fun ⟨j, m, path, enters⟩ => without j m path enters
    exact clean at_halt

/-- `void main() { while (1) { output(0, 0, half(6)); return; } }` and
`int half(int x) { return x >> 1; }`. -/
def early : Program :=
  ⟨[.procedure "main" []
      [.whileDo (.int 1) [.apply "output" [.int 0, .int 0, .apply "half" [.int 6]], .ret none]],
    .function "half" ["x"] [.give (.binary .shr (.var "x") (.int 1))]]⟩

/-- A run that leaves `main` out of a loop. -/
theorem ends_clean_early : ∃ image, early.link {} = .ok image ∧ image.Addressable ∧
    ((loaded []).run {} image).fault = none ∧ early.Rooted ∧
    ((loaded []).run {} image).machine.pc = halt.toInt64 ∧
    ((loaded []).run {} image).machine.stack.values = [] ∧
    ((loaded []).run {} image).machine.base = 0 := by
  obtain ⟨image, links, short, ended⟩ : ∃ image, early.link {} = .ok image ∧ image.Addressable ∧
      ((loaded []).run {} image).fault = none :=
    ⟨⟨_, _⟩, by cbv, by decide, by decide +kernel⟩
  have rooted : early.Rooted := by decide
  obtain ⟨at_halt, clean⟩ := ends_clean links short ended
  exact ⟨image, links, short, ended, rooted, at_halt, clean (.inl rooted)⟩

/-- `void main() { if (x == 0) { int x = 5; main(); } }`: the variable is zero when the machine has not
run, and not any more in the call. -/
def reentrant : Program :=
  ⟨[.procedure "main" [] [.ifThen (.binary .eq (.var "x") (.int 0))
      [.declareInt "x" (.int 5), .apply "main" []]]]⟩

/-- A run that ends inside a call of `main` leaves the frame of the call behind. -/
theorem ends_inside_call : ∃ image, reentrant.link {} = .ok image ∧
    ((loaded []).run {} image).fault = none ∧
    ((loaded []).run {} image).machine.pc = halt.toInt64 ∧
    ((loaded []).run {} image).machine.stack.values = [0, 17, 5] ∧
    ((loaded []).run {} image).machine.base = 3 := by
  refine ⟨⟨_, _⟩, by cbv, ?_, ?_, ?_, ?_⟩ <;> decide +kernel

end Program

end GridStack
