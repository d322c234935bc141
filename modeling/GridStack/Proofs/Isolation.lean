import Mathlib
import GridStack.Proofs.Calling
import GridStack.Proofs.Image.Segments
import GridStack.Proofs.Image.Symbols
import GridStack.Proofs.Refinement

/-!
# Calls do not see their callers

Caller and callee share the registers, and nothing is cleared when a function is entered. So a call can see
what its caller has left there: in a variable that is read before anything has been stored to it, and in the
scratch register. `Program.alone` evaluates a call without this, from its arguments alone, and is stuck where
the call would use it (`Program.Secluded`).

An `Activation` is a stretch of a run from the entry of a function to the step that takes the address to come
back to off the stack. `calls_agree` is that two activations of a secluded call, made from any machines,
write the same cells and leave the same result. Both are compared with the evaluation from the arguments
alone, which knows less than either of them (`Lowered.function_refines`), so the two runs never have to be
compared step by step. A call that is not secluded can tell its callers apart (`leftovers_show`).
-/

namespace GridStack

open Machine (Path loaded)

/-- Registers of which nothing is known, with nothing written. -/
def Cells.unknown : Cells where
  vars _ := none
  scratch := none
  log := []

/-- All cells are above the ones of which nothing is known. -/
theorem Cells.unknown_below (cells : Cells) : Cells.unknown.Below cells.log cells :=
  ⟨fun _ _ known => (Option.some_ne_none _ known.symm).elim, rfl,
    fun _ known => (Option.some_ne_none _ known.symm).elim⟩

namespace Machine

/-- A path over machines that satisfy a condition can be computed. -/
theorem path_iff_forall {code : Array Instruction} {inv : Machine → Prop} {k : Nat} {m m' : Machine} :
    Path code inv k m m' ↔ m.stepped? code k = some m' ∧
      ∀ i < k + 1, ∀ between ∈ m.stepped? code i, inv between := by
  constructor
  · intro path
    have plain : Path code (fun _ => True) k m m' := path.mono fun _ _ => trivial
    refine ⟨path_iff.1 plain, fun i hi between reached => ?_⟩
    exact path.passes (path_iff.2 reached) (Nat.le_of_lt_succ hi)
  · rintro ⟨reached, keeps⟩
    induction k generalizing m with
    | zero =>
      obtain rfl : m = m' := Option.some.inj reached
      exact .here (keeps 0 Nat.one_pos m rfl)
    | succ k ih =>
      obtain ⟨next, advances, rest⟩ := Option.bind_eq_some_iff.1 reached
      refine .step (keeps 0 (Nat.succ_pos _) m rfl) advances (ih rest fun i hi between there => ?_)
      -- A machine that is reached from the next one is reached one step later from this one.
      have later : between ∈ m.stepped? code (i + 1) := Option.bind_eq_some_iff.2 ⟨next, advances, there⟩
      exact keeps (i + 1) (Nat.succ_lt_succ hi) between later

/-- Whether there is a path can be found by following the steps. -/
instance (code : Array Instruction) (inv : Machine → Prop) [DecidablePred inv] (k : Nat)
    (m m' : Machine) : Decidable (Path code inv k m m') :=
  decidable_of_iff _ path_iff_forall.symm

/-- A stretch of a run in which a function is called and comes back: it begins at the entry of the function,
with the arguments on the stack above the base of the caller and the address to come back to, and ends with
the first step that takes this address off the stack. -/
structure Activation (image : Image) (name : String) (args : List Int64) where
  symbol : Symbol
  listed : symbol ∈ image.symbols
  named : symbol.name = name
  /-- The machine at the entry. -/
  start : Machine
  entered : start.pc = Int64.ofNat symbol.entry.toNat
  saved : Int64
  ret : Int64
  rest : List Int64
  frame : start.stack.values = args.reverse ++ saved :: ret :: rest
  steps : Nat
  /-- The machine in front of the last step. -/
  last : Machine
  underway : Path image.code.toArray (fun m => rest.length < m.stack.height) steps start last
  /-- The machine that is back. -/
  finish : Machine
  returns : last.advance? image.code.toArray = some finish
  taken : finish.stack.height ≤ rest.length

namespace Activation

variable {image : Image} {name : String} {args : List Int64} (a : Activation image name args)

/-- The whole of an activation. -/
theorem path : Path image.code.toArray (fun _ => True) (a.steps + 1) a.start a.finish :=
  (a.underway.mono fun _ _ => trivial).trans (.single trivial a.returns trivial)

/-- A way from the entry that keeps the address to come back to is no longer than the activation. -/
theorem le_steps {n : Nat} {m : Machine}
    (kept : Path image.code.toArray (Keeps (a.ret :: a.rest)) n a.start m) : n ≤ a.steps := by
  by_contra longer
  have back : Keeps (a.ret :: a.rest) a.finish := kept.passes a.path (by omega)
  have high : a.rest.length + 1 ≤ a.finish.stack.values.length := back.length_le
  have low := a.taken
  rw [a.finish.stack.height_eq] at low
  omega

/-- A way that keeps the address to come back to and then takes it off is the activation. -/
theorem finish_eq {n : Nat} {m next : Machine}
    (kept : Path image.code.toArray (Keeps (a.ret :: a.rest)) n a.start m)
    (advances : m.advance? image.code.toArray = some next) (back : next.stack.values = a.rest) :
    next = a.finish := by
  have le : n ≤ a.steps := a.le_steps kept
  have whole : Path image.code.toArray (fun _ => True) (n + 1) a.start next :=
    (kept.mono fun _ _ => trivial).trans (.single trivial advances trivial)
  have ge : a.steps ≤ n := by
    by_contra shorter
    have high : a.rest.length < next.stack.height := a.underway.passes whole (by omega)
    rw [next.stack.height_eq, back] at high
    exact Nat.lt_irrefl _ high
  obtain rfl : n = a.steps := Nat.le_antisymm le ge
  exact whole.unique a.path

/-- The writes between the entry and the return. -/
def Writes (writes : List Write) : Prop :=
  a.finish.writes = a.start.writes ++ writes

end Activation

end Machine

open Machine (Activation Keeps Realizes)

namespace Program

/-- A call of a function evaluated from its arguments alone, when nothing is known of what its caller has left
in the registers. -/
def alone (program : Program) (options : Options) (grid : Grid) (fuel : Nat) (name : String)
    (args : List Int64) : Except CompileError (Lowered.Outcome Unit) := do
  let functions ← program.check
  let object ← program.compile options
  return Lowered.function (.ofFunctions functions grid fun label =>
    some (Layout.addressIn (Layout.positions 0 object.code) ⟨label⟩).toInt64) fuel name args .unknown

/-- A call never uses what its caller has left in the registers: no variable is read before something has been
stored to it since the call began, and neither is the scratch register. -/
def Secluded (program : Program) (options : Options) (grid : Grid) (name : String) (args : List Int64) :
    Prop :=
  ∀ fuel log, program.alone options grid fuel name args ≠ .ok (.stop .stuck log)

/-- A call that comes back has put something into the scratch register. -/
def Answers (program : Program) (options : Options) (grid : Grid) (name : String) (args : List Int64) :
    Prop :=
  ∀ fuel after, program.alone options grid fuel name args = .ok (.value () after) → after.scratch ≠ none

namespace Linked

variable {program : Program} {options : Options} {image : Image} (l : Linked program options image)
  {name : String} {args : List Int64}

/-- The evaluation of a call from its arguments alone, for a linked program. -/
theorem alone_eq (grid : Grid) (fuel : Nat) : program.alone options grid fuel name args
    = .ok (Lowered.function ((l.scene grid).world l.functions) fuel name args .unknown) := by
  unfold alone
  rw [l.checked, l.compile_eq]
  rfl

/-- An activation does what the evaluation of the call says that knows all registers. -/
theorem activation_realizes {callee : Callee} (found : l.table.find? name = some callee)
    (arity : args.length = callee.params) (a : Activation image name args) (fuel : Nat) :
    Realizes image.code.toArray (Keeps (a.ret :: a.rest)) (fuel - 1) a.start
      (Lowered.function ((l.scene a.start.grid).world l.functions) fuel name args a.start.cells)
      fun _ after m => ∃ next, m.advance? image.code.toArray = some next ∧
        next.Shows a.start.grid a.ret a.rest ⟨a.saved, [], after⟩ := by
  have calls : (l.scene a.start.grid).Calls l.table fuel _ := Scene.function_calls (l.holds a.start.grid)
  have entry := l.symbol_entry a.start.grid found a.listed a.named
  have shows := a.start.shows_self
  rw [a.entered, ← entry] at shows
  have framed : ([] : List Int64) ++ a.start.stack.values
      = (args.reverse ++ [a.saved]) ++ (a.ret :: a.rest) := by
    rw [a.frame, List.nil_append, List.append_assoc]
    rfl
  exact calls found arity (shows.reframe framed)

/-- An activation of a secluded call ends as the evaluation from the arguments alone does, once there is
enough fuel: with its writes, and with its content of the scratch register when that is known. -/
theorem ends_as_alone {callee : Callee} (found : l.table.find? name = some callee)
    (arity : args.length = callee.params) (a : Activation image name args)
    (secluded : program.Secluded options a.start.grid name args) {fuel : Nat} (enough : a.steps + 2 ≤ fuel) :
    ∃ after, program.alone options a.start.grid fuel name args = .ok (.value () after) ∧
      a.finish.log = after.log ++ a.start.log ∧
      ∀ x, after.scratch = some x → a.finish.scratch = x := by
  have never := secluded fuel
  have realizes := l.activation_realizes found arity a fuel
  have world : ((l.scene a.start.grid).world l.functions).Below ((l.scene a.start.grid).world l.functions) :=
    ⟨rfl, rfl, fun _ _ eq => eq⟩
  -- The machine knows all registers, the evaluation from the arguments none of them.
  have below := Lowered.function_refines world fuel name args _ _ _ a.start.cells.unknown_below
  rw [l.alone_eq] at never ⊢
  generalize Lowered.function _ fuel name args .unknown = outcome at never below ⊢
  generalize Lowered.function _ fuel name args a.start.cells = outcome' at below realizes
  cases below with
  | @stuck log => exact absurd rfl (never log)
  | @stop reason log =>
    exfalso
    cases reason with
    | stuck => exact realizes
    | timeout =>
      obtain ⟨n, m, long, kept, -⟩ := realizes
      have le := a.le_steps kept
      omega
    | halted =>
      -- The activation goes on behind the place where the program would have ended.
      obtain ⟨n, m, kept, at_halt, -⟩ := realizes
      have stopped : m.advance? image.code.toArray = none :=
        Machine.advance?_of_halted (Machine.halted_of_halt at_halt)
      have whole := kept.le_of_stopped a.path stopped
      have le := a.le_steps kept
      omega
  | @value result after after' below =>
    obtain ⟨n, m, kept, next, advances, shows⟩ := realizes
    have stack : next.stack.values = a.rest := shows.stack_eq
    obtain rfl := a.finish_eq kept advances stack
    refine ⟨after, rfl, ?_, fun x known => ?_⟩
    · exact shows.log_eq.trans below.log_eq
    · have content : after'.scratch = some x := below.scratch_le x known
      exact Option.some.inj (shows.scratch_eq.symm.trans content)

end Linked

/-- Two calls of a function with equal arguments that come back, over one grid, do the same writes in the same
order, whatever their callers have in the registers and whenever they are made, and if the function answers
they leave the same content in the scratch register. This is for calls that do not use what their callers have
left. -/
theorem calls_agree {program : Program} {options : Options} {image : Image}
    (links : program.link options = .ok image) (short : image.Addressable)
    {decl : FunctionDecl} (declared : decl ∈ program.functions)
    {args : List Int64} (arity : args.length = decl.params.length) {grid : Grid}
    (secluded : program.Secluded options grid decl.name args)
    (first second : Activation image decl.name args) (first_grid : first.start.grid = grid)
    (second_grid : second.start.grid = grid) :
    ∃ writes, first.Writes writes ∧ second.Writes writes ∧
      (program.Answers options grid decl.name args → first.finish.scratch = second.finish.scratch) := by
  obtain ⟨l⟩ := link_ok links short
  obtain ⟨callee, found, params⟩ := l.exists_callee declared
  have arity := arity.trans params.symm
  -- One amount of fuel for both.
  let fuel := max (first.steps + 2) (second.steps + 2)
  rw [← first_grid] at secluded
  obtain ⟨after, evaluated, log, scratch⟩ :=
    l.ends_as_alone found arity first secluded (Nat.le_max_left _ (second.steps + 2))
  rw [first_grid, ← second_grid] at secluded
  obtain ⟨after', evaluated', log', scratch'⟩ :=
    l.ends_as_alone found arity second secluded (Nat.le_max_right (first.steps + 2) _)
  rw [first_grid] at evaluated
  rw [second_grid, evaluated] at evaluated'
  obtain rfl : after = after' := by
    cases evaluated'
    rfl
  have appended : ∀ {m m' : Machine}, m'.log = after.log ++ m.log →
      m'.writes = m.writes ++ after.log.reverse := by
    intro m m' eq
    unfold Machine.writes
    rw [eq, List.reverse_append]
  refine ⟨after.log.reverse, appended log, appended log', fun answers => ?_⟩
  obtain ⟨x, known⟩ := Option.ne_none_iff_exists'.1 (answers _ after evaluated)
  rw [scratch x known, scratch' x known]

/-- `void main() { int a = 1; int b = f(3); a = 2; b = f(3); }` and
`int f(int n) { int m = n + 1; output(0, 0, m); return m; }`. -/
def twice : Program :=
  ⟨[.procedure "main" [] [.declareInt "a" (.int 1), .declareInt "b" (.apply "f" [.int 3]),
      .set "a" (.int 2), .set "b" (.apply "f" [.int 3])],
    .function "f" ["n"] [.declareInt "m" (.binary .add (.var "n") (.int 1)),
      .apply "output" [.int 0, .int 0, .var "m"], .give (.var "m")]]⟩

/-- The registers behind a call of its `f`: the argument, the variable and the result. -/
def twiceAfter : Cells :=
  ⟨fun i => if i = 1 then some 4 else if i < 1 then [3][i]? else none, some 4, [⟨0, 0, 4⟩]⟩

/-- A call of its `f` comes back, from the first unit of fuel on. -/
theorem twice_alone : twice.alone {} [] 0 "f" [3] = .ok (.stop .timeout []) ∧
    ∀ fuel, twice.alone {} [] (fuel + 1) "f" [3] = .ok (.value () twiceAfter) := by
  have checked : twice.check = .ok (twice.functions.map FunctionDecl.checked) := by cbv
  obtain ⟨object, compiled⟩ : ∃ object, twice.compile {} = .ok object := ⟨⟨_, _⟩, by cbv⟩
  constructor
  · unfold alone
    rw [checked, compiled]
    rfl
  · intro fuel
    unfold alone
    rw [checked, compiled]
    rfl

/-- So it is secluded, and answers. -/
theorem twice_secluded : twice.Secluded {} [] "f" [3] ∧ twice.Answers {} [] "f" [3] := by
  obtain ⟨zero, succ⟩ := twice_alone
  constructor
  · rintro (_ | fuel) log stuck
    · cases Except.ok.inj (zero.symm.trans stuck)
    · cases Except.ok.inj ((succ fuel).symm.trans stuck)
  · rintro (_ | fuel) after evaluated
    · cases Except.ok.inj (zero.symm.trans evaluated)
    · have ends := Except.ok.inj ((succ fuel).symm.trans evaluated)
      rw [← (Lowered.Outcome.value.inj ends).2]
      exact Option.some_ne_none 4

/-- A machine over an empty grid. -/
def snapshot (registers : Registers) (stack : List Int64) (log : List Write) (steps : Nat) : Machine :=
  ⟨registers, ⟨stack, stack.length, rfl⟩, [], log, steps⟩

/-- Both calls of `f` are activations in one run. -/
theorem calls_agree_twice : ∃ (image : Image) (first second : Activation image "f" [3]),
    twice.link {} = .ok image ∧ image.Addressable ∧
      Path image.code.toArray (fun _ => True) 13 (loaded []) first.start ∧
      Path image.code.toArray (fun _ => True) 43 (loaded []) second.start ∧
      (∃ writes, first.Writes writes ∧ second.Writes writes) ∧
      first.finish.scratch = second.finish.scratch := by
  let start := snapshot #v[34, 4, 0, 1, 0, 0, 0, 0] [3, 0, 13, 1, 0] [] 13
  let last := snapshot #v[47, 0, 4, 3, 4, 0, 0, 0] [13, 1, 0] [⟨0, 0, 4⟩] 26
  let finish := snapshot #v[13, 0, 4, 3, 4, 0, 0, 0] [1, 0] [⟨0, 0, 4⟩] 27
  let start' := snapshot #v[34, 4, 4, 2, 4, 0, 0, 0] [3, 0, 29, 2, 4] [⟨0, 0, 4⟩] 43
  let last' := snapshot #v[47, 0, 4, 3, 4, 0, 0, 0] [29, 2, 4] [⟨0, 0, 4⟩, ⟨0, 0, 4⟩] 56
  let finish' := snapshot #v[29, 0, 4, 3, 4, 0, 0, 0] [2, 4] [⟨0, 0, 4⟩, ⟨0, 0, 4⟩] 57
  obtain ⟨image, links, short, listed, before, underway, returns, before', underway', returns'⟩ :
      ∃ image, twice.link {} = .ok image ∧ image.Addressable ∧ ⟨"f", 34⟩ ∈ image.symbols ∧
        Path image.code.toArray (fun _ => True) 13 (loaded []) start ∧
        Path image.code.toArray (fun m => 2 < m.stack.height) 13 start last ∧
        last.advance? image.code.toArray = some finish ∧
        Path image.code.toArray (fun _ => True) 43 (loaded []) start' ∧
        Path image.code.toArray (fun m => 2 < m.stack.height) 13 start' last' ∧
        last'.advance? image.code.toArray = some finish' := by
    refine ⟨⟨_, _⟩, by cbv, ?_⟩
    decide +kernel
  let first : Activation image "f" [3] := ⟨_, listed, rfl, start, rfl, 0, 13, [1, 0], rfl, 13, last, underway,
    finish, returns, Nat.le_refl 2⟩
  let second : Activation image "f" [3] := ⟨_, listed, rfl, start', rfl, 0, 29, [2, 4], rfl, 13, last',
    underway', finish', returns', Nat.le_refl 2⟩
  have declared : twice.functions[1] ∈ twice.functions := List.getElem_mem _
  obtain ⟨writes, wrote, wrote', same⟩ :=
    calls_agree links short declared rfl twice_secluded.1 first second rfl rfl
  exact ⟨image, first, second, links, short, before, before', ⟨writes, wrote, wrote'⟩, same twice_secluded.2⟩

/-- `void main() { int a = 1; int b = f(); a = 2; output(0, 0, b == f()); }` and
`int f() { return x; int x = 0; }`. -/
def leaky : Program :=
  ⟨[.procedure "main" [] [.declareInt "a" (.int 1), .declareInt "b" (.apply "f" []), .set "a" (.int 2),
      .apply "output" [.int 0, .int 0, .binary .eq (.var "b") (.apply "f" [])]],
    .function "f" [] [.give (.var "x"), .declareInt "x" (.int 0)]]⟩

/-- A function that returns a variable to which nothing has been stored returns what its caller has in the
register: two calls without arguments in one run leave different results. -/
theorem leftovers_show : ∃ (image : Image) (first second : Activation image "f" []),
    leaky.link {} = .ok image ∧ image.Addressable ∧
      Path image.code.toArray (fun _ => True) 12 (loaded []) first.start ∧
      Path image.code.toArray (fun _ => True) 35 (loaded []) second.start ∧
      first.finish.scratch = 1 ∧ second.finish.scratch = 2 := by
  let start := snapshot #v[38, 4, 0, 1, 0, 0, 0, 0] [0, 12, 1, 0] [] 12
  let last := snapshot #v[44, 0, 1, 1, 0, 0, 0, 0] [12, 1, 0] [] 16
  let finish := snapshot #v[12, 0, 1, 1, 0, 0, 0, 0] [1, 0] [] 17
  let start' := snapshot #v[38, 7, 1, 2, 1, 0, 0, 0] [0, 30, 2, 1, 1, 0, 0] [] 35
  let last' := snapshot #v[44, 0, 2, 2, 1, 0, 0, 0] [30, 2, 1, 1, 0, 0] [] 39
  let finish' := snapshot #v[30, 0, 2, 2, 1, 0, 0, 0] [2, 1, 1, 0, 0] [] 40
  obtain ⟨image, links, short, listed, before, underway, returns, before', underway', returns'⟩ :
      ∃ image, leaky.link {} = .ok image ∧ image.Addressable ∧ ⟨"f", 38⟩ ∈ image.symbols ∧
        Path image.code.toArray (fun _ => True) 12 (loaded []) start ∧
        Path image.code.toArray (fun m => 2 < m.stack.height) 4 start last ∧
        last.advance? image.code.toArray = some finish ∧
        Path image.code.toArray (fun _ => True) 35 (loaded []) start' ∧
        Path image.code.toArray (fun m => 5 < m.stack.height) 4 start' last' ∧
        last'.advance? image.code.toArray = some finish' := by
    refine ⟨⟨_, _⟩, by cbv, ?_⟩
    decide +kernel
  exact ⟨image,
    ⟨_, listed, rfl, start, rfl, 0, 12, [1, 0], rfl, 4, last, underway, finish, returns, Nat.le_refl 2⟩,
    ⟨_, listed, rfl, start', rfl, 0, 30, [2, 1, 1, 0, 0], rfl, 4, last', underway', finish', returns',
      Nat.le_refl 5⟩,
    links, short, before, before', rfl, rfl⟩

end Program

end GridStack
