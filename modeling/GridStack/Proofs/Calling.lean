import Mathlib
import GridStack.Program.Build
import GridStack.Proofs.Draft.Calls
import GridStack.Proofs.Linked

/-!
# Calls keep what the caller has

A `CallSite` is a call somewhere in the code of a program: `Emit.call` has generated it from one draft to
another, and the code of the second draft is the front part of a routine. A machine that comes to such a
place may do anything there is to do in the arguments and in the callee, calls of the same place among it.
`call_round_trip` is that it cannot touch what the caller had on the stack until control is back, and that
behind the restoring pops the caller has its stack, its base and its variables again.

The place of a call is not told apart from the places of its recursive calls by the address to come back
to, but by the height of the stack. `Scene.call_realizes` has this as the invariant `Machine.Pending`, on
the way to the one step that comes back; so what is left here is to find that step on a path.
-/

namespace GridStack

open Machine (Path Pending place)
open Layout (Stands room)

namespace Machine

/-- The registers of a machine, all of them known. -/
def cells (m : Machine) : Cells where
  vars i := m.register? (Register.ofVar i)
  scratch := some m.scratch
  log := m.log

/-- A machine shows its own registers. -/
theorem shows_self (m : Machine) : m.Shows m.grid m.pc m.stack.values ⟨m.base, [], m.cells⟩ := by
  refine ⟨rfl, rfl, rfl, fun i hi => ?_, rfl, rfl, rfl⟩
  obtain ⟨index, -, -⟩ := View.index?_ofVar hi
  obtain ⟨_, found⟩ := place?_of_index? index
  show m.register? _ = _
  unfold Machine.register?
  rw [found]

/-- A machine that shows the same content of a variable as another one. -/
theorem Shows.register?_ofVar {m m' : Machine} {grid : Grid} {pc base : Int64} {floor stack : List Int64}
    {cells : Cells} {i : Nat} (hi : i < 5) (shows : m'.Shows grid pc floor ⟨base, stack, cells⟩)
    (eq : cells.vars i = m.cells.vars i) :
    m'.register? (Register.ofVar i) = m.register? (Register.ofVar i) := by
  have content := m.shows_self.vars_eq i hi
  have same := shows.register? ((View.read_ofVar _ hi).trans (eq.trans content))
  exact same.trans content.symm

/-- A call that has made no more steps than there is fuel is pending, or has just come back: before that
it was not at the address to come back to with the stack at that height. -/
theorem Realizes.pending_or {α : Type} {code : Array Instruction} {floor : List Int64} {height fuel k : Nat}
    {resume : Int64} {m m' : Machine} {outcome : Lowered.Outcome α} {home : Cells → Machine → Prop}
    (h : Realizes code (Pending floor height resume) fuel m outcome
      fun _ after last => ∃ next, last.advance? code = some next ∧ home after next)
    (arrives : ∀ after next, home after next → next.pc = resume ∧ next.stack.height = height)
    (path : Path code (fun _ => True) k m m') (within : k < fuel)
    (first : ∀ i < k, ∀ between, Path code (fun _ => True) i m between →
      ¬ (between.pc = resume ∧ between.stack.height = height)) :
    Pending floor height resume m' ∨ ∃ after, home after m' := by
  rcases outcome with ⟨_, after⟩ | ⟨_ | _ | _, _⟩
  · obtain ⟨n, last, pending, next, advances, at_home⟩ := h
    have whole : Path code (fun _ => True) (n + 1) m next :=
      (pending.mono fun _ _ => trivial).trans (.single trivial advances trivial)
    rcases Nat.lt_trichotomy k (n + 1) with before | rfl | behind
    · exact .inl (pending.passes path (by omega))
    · rw [path.unique whole]
      exact .inr ⟨after, at_home⟩
    · exact absurd (arrives after next at_home) (first _ behind next whole)
  · -- The program ended in the callee: there is nothing behind it on the path.
    obtain ⟨n, last, pending, at_halt, -⟩ := h
    exact .inl (pending.passes path (pending.le_of_stopped path
      (advance?_of_halted (halted_of_halt at_halt))))
  · contradiction
  · obtain ⟨n, last, long, pending, -⟩ := h
    exact .inl (pending.passes path (by omega))

end Machine

namespace Program

/-- A call in the code of a program. -/
structure CallSite (program : Program) (options : Options) where
  functions : List CheckedFunction
  object : Object
  checked : program.check = .ok functions
  compiled : program.compile options = .ok object
  /-- The routines in front of the one that the call is in. -/
  before : List Routine
  routine : Routine
  after : List Routine
  split : object.routines = before ++ routine :: after
  /-- The function that the routine is the code of. -/
  caller : CheckedFunction
  member : caller ∈ functions
  exit : Nat
  next : Nat
  generated : caller.compile (.build functions 0) options.fuse exit = .ok (routine, next)
  call : Call
  asValue : Bool
  /-- The draft in front of the call. -/
  start : Draft
  /-- The draft behind the last restoring pop. -/
  finish : Draft
  emitted : Emit.call ⟨caller, .build functions 0, options.fuse, ⟨exit⟩⟩ call asValue start
    = .ok ((), finish)
  part : finish.code <+: routine.code

namespace CallSite

variable {program : Program} {options : Options} (c : CallSite program options)

/-- Every call in the body of a function has its place in the code. -/
theorem exists_of_mem {functions : List CheckedFunction} {object : Object}
    (checked : program.check = .ok functions) (compiled : program.compile options = .ok object)
    {f : CheckedFunction} (member : f ∈ functions) {call : Call} (inside : call ∈ Stmt.callsOfAll f.body) :
    ∃ c : CallSite program options, c.caller = f ∧ c.call = call := by
  have generation := compiled
  unfold compile at generation
  rw [checked] at generation
  obtain ⟨before, routine, after, exit, labels, split, generated⟩ :=
    compileAll_mem generation (mem_layoutOrder.2 member)
  obtain ⟨callee, _, draft, -, succeeds, same, -⟩ := CheckedFunction.generated_of_compile generated
  have emits : Emit.Emits ⟨f, .build functions 0, options.fuse, ⟨exit⟩⟩ call
      (Emit.function ⟨f, .build functions 0, options.fuse, ⟨exit⟩⟩ callee.entry) :=
    Emit.function_emits callee.entry inside
  obtain ⟨asValue, start, finish, emitted, -, part⟩ := emits _ _ _ succeeds
  rw [← same] at part
  exact ⟨⟨functions, object, checked, compiled, before, routine, after, split, f, member, exit, labels,
    generated, call, asValue, start, finish, emitted, part⟩, rfl, rfl⟩

/-- What the code of the caller is generated with. -/
def site : Site :=
  ⟨c.caller, .build c.functions 0, options.fuse, ⟨c.exit⟩⟩

/-- The number of variables that the call saves. -/
def width : Nat :=
  c.caller.vars.length

/-- The position of the first instruction of the call. -/
def first : Nat :=
  room (c.before.flatMap Routine.code ++ c.start.code)

/-- The position behind the last restoring pop. -/
def last : Nat :=
  room (c.before.flatMap Routine.code ++ c.finish.code)

/-- The position of the first restoring pop, where the callee comes back to. -/
def resume : Nat :=
  c.last - c.width

/-- Control is back at the call that was begun with a stack of the given height. -/
def Back (height : Nat) (m : Machine) : Prop :=
  m.pc = Int64.ofNat c.resume ∧ m.stack.height = height + c.width

/-- Whether a call is back can be seen from the machine. -/
instance (height : Nat) (m : Machine) : Decidable (c.Back height m) :=
  inferInstanceAs (Decidable (_ ∧ _))

/-- A number of steps from the beginning of a call on, of which none was made when control was back. -/
def Underway (code : Array Instruction) (k : Nat) (m m' : Machine) : Prop :=
  Path code (fun _ => True) k m m' ∧
    ∀ i < k, ∀ between, Path code (fun _ => True) i m between → ¬ c.Back m.stack.height between

/-- Whether a call is underway can be found by following the steps. -/
instance (code : Array Instruction) (k : Nat) (m m' : Machine) : Decidable (c.Underway code k m m') :=
  decidable_of_iff (m.stepped? code k = some m' ∧
    ∀ i < k, ∀ between ∈ m.stepped? code i, ¬ c.Back m.stack.height between) <| by
      unfold Underway
      simp only [Machine.path_iff, Option.mem_def]

variable {image : Image}

/-- The program of a call, linked. -/
def linked (links : program.link options = .ok image) (short : image.Addressable) :
    Linked program options image where
  functions := c.functions
  object := c.object
  checked := c.checked
  compiled := by
    have compiled := c.compiled
    unfold compile at compiled
    rw [c.checked] at compiled
    exact compiled
  laid := by
    unfold link at links
    rw [c.compiled] at links
    exact links
  short := short

/-- The caller has no more variables than there are registers. -/
theorem few : c.caller.vars.length ≤ maxVariables := by
  obtain ⟨decl, -, declared⟩ := exists_declared (check_ok c.checked).pairs c.member
  exact declared.fit.few

/-- The code of a call stands at its place. -/
theorem stands : ∃ f block, c.site.table.find? c.call.name = some f ∧
    CallCode c.site c.start.depth c.start.nextLabel f c.call.args block ∧
    c.finish.code = c.start.code ++ block ∧
    Stands (c.object.routines.flatMap Routine.code) (c.before.flatMap Routine.code ++ c.start.code) block := by
  obtain ⟨f, block, found, code, eq⟩ := Emit.call_appends c.emitted
  refine ⟨f, block, found, code, eq, ?_⟩
  have part := c.part
  rw [eq] at part
  show _ <+: _
  rw [c.split, List.flatMap_append, List.flatMap_cons, List.append_assoc]
  exact (List.prefix_append_right_inj _).2 (part.trans (List.prefix_append _ _))

/-- There are as many restoring pops as the caller has variables. -/
theorem room_restore : room (Code.restore c.site) = c.width := by
  unfold room Code.restore
  rw [List.countP_map]
  refine (List.countP_eq_length.2 fun _ _ => rfl).trans ?_
  unfold Emit.window
  rw [List.length_map, List.length_range]
  rfl

/-- The caller is back at the first of the restoring pops. -/
theorem resume_eq {f : Callee} {block : List Instr} {offset : Int}
    (code : c.finish.code = c.start.code ++ (Code.save c.site ⟨c.start.nextLabel⟩ ++ (block ++
      (Code.enter offset f.entry ++ ([.marker ⟨c.start.nextLabel⟩] ++ Code.restore c.site))))) :
    Int64.ofNat c.resume = place (c.before.flatMap Routine.code ++ c.start.code ++
      Code.save c.site ⟨c.start.nextLabel⟩ ++ block ++ Code.enter offset f.entry) := by
  have pops := c.room_restore
  have marker : room [.marker ⟨c.start.nextLabel⟩] = 0 := rfl
  unfold resume last place
  rw [code]
  congr 1
  simp only [Layout.room_append, pops, marker]
  omega

/-- The restoring pops, when the callee has come back. -/
theorem restores (links : program.link options = .ok image) (short : image.Addressable)
    {grid : Grid} {m : Machine} {floor : List Int64} {base : Int64} {before after : Cells}
    {values : Nat → Int64} (known : ∀ i < 5, before.vars i = some (values i))
    (shows : m.Shows grid (Int64.ofNat c.resume) ((List.range c.width).map values ++ floor)
      ⟨base, [], after⟩) :
    ∃ m', Path image.code.toArray (fun _ => True) c.width m m' ∧ m'.Shows grid (Int64.ofNat c.last) floor
      ⟨base, [], { after with vars := fun i => if i < c.width then before.vars i else after.vars i }⟩ := by
  obtain ⟨f, _, -, ⟨-, -⟩, code, stands⟩ := c.stands
  rw [c.resume_eq code, ← Scene.place_marker ⟨c.start.nextLabel⟩] at shows
  have lowered : m.Shows grid _ floor ⟨base, (List.range c.width).map values, after⟩ := shows.reframe rfl
  obtain ⟨m', path, shows'⟩ := Machine.block_path ((c.linked links short).scene grid).laid
    stands.right.right.right.right lowered (Scene.run_restore c.few known)
  rw [c.room_restore] at path
  simp only [List.append_assoc] at shows'
  rw [← code] at shows'
  exact ⟨m', path.mono fun _ _ => trivial, shows'⟩

/-- A call at its place, from any machine: until it is about to come back it is pending. -/
theorem realizes (links : program.link options = .ok image) (short : image.Addressable)
    {m : Machine} (begins : m.pc = Int64.ofNat c.first) {values : Nat → Int64}
    (known : ∀ i < 5, m.cells.vars i = some (values i)) (fuel : Nat) :
    ∃ outcome : Lowered.Outcome Unit, Machine.Realizes image.code.toArray
      (Pending m.stack.values (m.stack.values.length + c.width) (Int64.ofNat c.resume)) fuel m outcome
      fun _ after last => ∃ next, last.advance? image.code.toArray = some next ∧
        next.Shows m.grid (Int64.ofNat c.resume) ((List.range c.width).map values ++ m.stack.values)
          ⟨m.base, [], after⟩ := by
  have calls : ((c.linked links short).scene m.grid).Calls c.site.table fuel _ :=
    Scene.function_calls ((c.linked links short).holds m.grid)
  obtain ⟨f, block, found, ⟨arity, args⟩, code, stands⟩ := c.stands
  have shows := m.shows_self
  rw [begins] at shows
  have back : (((c.linked links short).scene m.grid).address ⟨c.start.nextLabel⟩).toInt64
      = Int64.ofNat c.resume := by
    rw [c.resume_eq code]
    exact Scene.address_eq stands.right.right.right.left
  have arguments := @Scene.exprs_runs ((c.linked links short).scene m.grid) fuel c.functions c.site _ calls
    c.few c.call.args _ _ _ _ args stands.right.left
  have whole := Scene.call_realizes calls c.few found stands arguments
    (fun _ yields => (Scene.exprs_length c.call.args yields).trans arity) known shows
  rw [back] at whole
  exact ⟨_, whole⟩

end CallSite

/-- A call takes nothing from the stack of its caller and changes nothing there, as long as control is
not back at the call with that stack below the saved variables. When it is, the restoring pops leave the
caller with its stack, its base and its variables, and the scratch register with what the callee has left
in it. -/
theorem call_round_trip {program : Program} {options : Options} {image : Image}
    (links : program.link options = .ok image) (short : image.Addressable)
    (c : CallSite program options) {k : Nat} {m m' : Machine} (begins : m.pc = Int64.ofNat c.first)
    (underway : c.Underway image.code.toArray k m m') :
    m.stack.values <:+ m'.stack.values ∧
      (c.Back m.stack.height m' → ∃ m'', Path image.code.toArray (fun _ => True) c.width m' m'' ∧
        m''.pc = Int64.ofNat c.last ∧ m''.stack = m.stack ∧ m''.base = m.base ∧
        (∀ i < c.width, m''.register? (Register.ofVar i) = m.register? (Register.ofVar i)) ∧
        m''.scratch = m'.scratch) := by
  obtain ⟨path, first⟩ := underway
  obtain ⟨values, known⟩ := m.shows_self.known.values
  -- Fuel for more steps than are looked at, so that a call that runs out of it is still pending.
  obtain ⟨outcome, realizes⟩ := c.realizes links short begins known (k + 1)
  have height : m.stack.height = m.stack.values.length := m.stack.height_eq
  have arrives : ∀ (after : Cells) (next : Machine), next.Shows m.grid (Int64.ofNat c.resume)
      ((List.range c.width).map values ++ m.stack.values) ⟨m.base, [], after⟩ →
      next.pc = Int64.ofNat c.resume ∧ next.stack.height = m.stack.values.length + c.width := by
    intro after next shows
    refine ⟨shows.pc_eq, ?_⟩
    rw [next.stack.height_eq, shows.stack_eq]
    simp only [List.nil_append, List.length_append, List.length_map, List.length_range]
    omega
  rcases realizes.pending_or arrives path (Nat.lt_succ_self k) (by rw [← height]; exact first) with
    ⟨kept, away⟩ | ⟨after, shows⟩
  · refine ⟨kept, fun back => absurd back ?_⟩
    rw [← height] at away
    exact away
  · refine ⟨⟨(List.range c.width).map values, shows.stack_eq.symm⟩, fun _ => ?_⟩
    obtain ⟨m'', pops, shows'⟩ := c.restores links short known shows
    refine ⟨m'', pops, shows'.pc_eq, Stack.ext_values shows'.stack_eq, shows'.base_eq, fun i hi => ?_, ?_⟩
    · have few := c.few
      unfold maxVariables at few
      have low : i < c.caller.vars.length := hi
      exact shows'.register?_ofVar (by omega) (if_pos hi)
    · exact Option.some.inj (shows'.scratch_eq.symm.trans shows.scratch_eq)

namespace CallSite

/-- `void main() { int a = 7; f(); }` and `void f() {}`. -/
def sampleProgram : Program :=
  ⟨[.procedure "main" [] [.declareInt "a" (.int 7), .apply "f" []], .procedure "f" [] []]⟩

/-- The code of its `main`. -/
def sampleRoutine : Routine where
  name := "main"
  entry := ⟨0⟩
  code := [.marker ⟨0⟩, .imm .const 7, .imm .pop 3, .imm .push 3, .constant (.label ⟨3⟩), .imm .push 1,
    .imm .push 1, .imm .const 3, .plain .add, .imm .pop 1, .constant (.label ⟨1⟩), .imm .pop 0, .marker ⟨3⟩,
    .imm .pop 3, .marker ⟨2⟩, .imm .const (-1), .imm .pop 0]

/-- The call in it. -/
def sample : CallSite sampleProgram {} where
  functions := [⟨"main", 0, false, ["a"], [.declareInt "a" (.int 7), .apply "f" []]⟩,
    ⟨"f", 0, false, [], []⟩]
  object := ⟨[sampleRoutine, ⟨"f", ⟨1⟩, [.marker ⟨1⟩, .marker ⟨4⟩, .imm .pop 1, .imm .pop 0]⟩], 5⟩
  checked := by cbv
  compiled := by cbv
  before := []
  routine := sampleRoutine
  after := [⟨"f", ⟨1⟩, [.marker ⟨1⟩, .marker ⟨4⟩, .imm .pop 1, .imm .pop 0]⟩]
  split := rfl
  caller := ⟨"main", 0, false, ["a"], [.declareInt "a" (.int 7), .apply "f" []]⟩
  member := List.mem_cons_self
  exit := 2
  next := 4
  generated := by cbv
  call := ⟨"f", [], none, []⟩
  asValue := false
  start := ⟨3, 0, (sampleRoutine.code.take 3).reverse⟩
  finish := ⟨4, 0, (sampleRoutine.code.take 14).reverse⟩
  emitted := by cbv
  part := ⟨sampleRoutine.code.drop 14, rfl⟩

/-- A machine in front of that call. -/
def sampleStart : Machine :=
  { Machine.loaded [] with registers := #v[2, 0, 0, 7, 0, 0, 0, 0], stack := ⟨[8, 9], 2, rfl⟩ }

/-- The same machine when the call is back. -/
def sampleBack : Machine :=
  { sampleStart with registers := #v[11, 0, 0, 7, 0, 0, 0, 0], stack := ⟨[7, 8, 9], 3, rfl⟩, steps := 11 }

end CallSite

/-- A call of a procedure that does nothing is back after eleven steps, and the next step restores the
variable of the caller. -/
theorem call_round_trip_sample : ∃ (image : Image) (m : Machine),
    CallSite.sampleProgram.link {} = .ok image ∧ image.Addressable ∧
      CallSite.sample.Underway image.code.toArray 11 CallSite.sampleStart CallSite.sampleBack ∧
      CallSite.sample.Back 2 CallSite.sampleBack ∧
      Path image.code.toArray (fun _ => True) 1 CallSite.sampleBack m ∧ m.stack.values = [8, 9] := by
  obtain ⟨image, links, short, underway⟩ : ∃ image, CallSite.sampleProgram.link {} = .ok image ∧
      image.Addressable ∧
      CallSite.sample.Underway image.code.toArray 11 CallSite.sampleStart CallSite.sampleBack := by
    exact ⟨⟨_, _⟩, by cbv, by decide, by decide +kernel⟩
  have back : CallSite.sample.Back 2 CallSite.sampleBack := by decide
  obtain ⟨-, restored⟩ := call_round_trip links short CallSite.sample rfl underway
  obtain ⟨m, pops, -, stack, -⟩ := restored back
  exact ⟨image, m, links, short, underway, back, pops, congrArg Stack.values stack⟩

end Program

end GridStack
