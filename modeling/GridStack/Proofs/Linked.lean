import GridStack.Proofs.Accepted
import GridStack.Proofs.Draft.Emission
import GridStack.Proofs.Simulation.Function

/-!
# Linked programs

From a program that links to a scene: the functions of the program pass the check, their code is laid out
one behind the other, and so the code of every function stands somewhere (`Linked.holds`), that of `main`
at position 0 (`Linked.main`).

The same labels are found in two ways, by the evaluation on registers, which numbers the functions as they
are laid out, and by generation, which hands the number of the next label on from function to function.
`compileAll_ok` brings the two together.
-/

namespace GridStack

namespace FunctionTable

variable {functions : List CheckedFunction} {name : String} {callee : Callee}

/-- What is found in a table has been put in for one of the functions. -/
theorem exists_of_find?_build {next : Nat} (h : (build functions next).find? name = some callee) :
    ∃ f label, (f, label) ∈ functions.zipIdx next ∧ f.name = name ∧
      callee = ⟨f.params, f.returnsValue, ⟨label⟩⟩ := by
  obtain ⟨before, after, eq, -⟩ := List.lookup_eq_some_iff.1 h
  have mem : (name, callee) ∈ build functions next := by
    rw [eq]
    exact List.mem_append_right before List.mem_cons_self
  unfold build at mem
  obtain ⟨⟨f, label⟩, indexed, pair⟩ := List.mem_map.1 (List.mem_reverse.1 mem)
  cases pair
  exact ⟨f, label, indexed, rfl, rfl⟩

/-- What a table says of a function is true of one of that name. -/
theorem of_find?_build {next : Nat} (h : (build functions next).find? name = some callee) :
    ∃ f ∈ functions, f.name = name ∧ callee.params = f.params ∧ callee.returnsValue = f.returnsValue := by
  obtain ⟨f, label, indexed, named, rfl⟩ := exists_of_find?_build h
  exact ⟨f, List.fst_mem_of_mem_zipIdx indexed, named, rfl, rfl⟩

end FunctionTable

namespace CheckedFunction

variable {f : CheckedFunction} {table : FunctionTable} {fuse : Bool} {next next' : Nat} {routine : Routine}

/-- A function that is compiled has an entry, and its code has been generated. -/
theorem generated_of_compile (h : f.compile table fuse next = .ok (routine, next')) :
    ∃ callee words draft, table.find? f.name = some callee ∧
      Emit.function ⟨f, table, fuse, ⟨next⟩⟩ callee.entry ⟨next + 1, words, []⟩ = .ok ((), draft) ∧
        routine.code = draft.code ∧ next' = draft.nextLabel := by
  unfold compile at h
  cases found : table.find? f.name with
  | none =>
    rw [found] at h
    contradiction
  | some callee =>
    rw [found] at h
    obtain ⟨⟨_, draft⟩, generated, h⟩ := Check.bind_ok h
    cases h
    exact ⟨callee, _, draft, rfl, generated, rfl, rfl⟩

/-- Generation of a function that succeeds gives its code. -/
theorem compile_ok (h : f.compile table fuse next = .ok (routine, next')) :
    ∃ callee, table.find? f.name = some callee ∧
      FunctionCode ⟨f, table, fuse, ⟨next⟩⟩ (next + 1) callee.entry routine.code ∧
        next' = next + 1 + Stmt.labelsOfAll f.body := by
  obtain ⟨callee, _, draft, found, generated, same, rfl⟩ := generated_of_compile h
  obtain ⟨code, labels⟩ := Emit.function_ok generated
  rw [same]
  exact ⟨callee, found, code, labels⟩

end CheckedFunction

namespace Program

/-- Functions are compiled one behind the other, each with the labels that those in front of it leave. -/
theorem compileAll_cons_ok {table : FunctionTable} {fuse : Bool} {f : CheckedFunction}
    {fs : List CheckedFunction} {next : Nat} {object : Object}
    (h : compileAll table fuse (f :: fs) next = .ok object) :
    ∃ routine next' rest, f.compile table fuse next = .ok (routine, next') ∧
      compileAll table fuse fs next' = .ok rest ∧
        object = { rest with routines := routine :: rest.routines } := by
  rw [compileAll] at h
  obtain ⟨⟨routine, next'⟩, first, h⟩ := Check.bind_ok h
  obtain ⟨rest, others, h⟩ := Check.bind_ok h
  cases h
  exact ⟨routine, next', rest, first, others, rfl⟩

/-- The code of a function is among the routines, with the labels that its number says. -/
theorem compileAll_ok {table : FunctionTable} {fuse : Bool} {functions : List CheckedFunction}
    {next : Nat} {object : Object} (h : compileAll table fuse functions next = .ok object)
    {name : String} {f : CheckedFunction} {exit : Nat}
    (found : (Lowered.numbered functions next).lookup name = some (f, exit)) :
    ∃ before routine after callee, object.routines = before ++ routine :: after ∧
      table.find? f.name = some callee ∧
        FunctionCode ⟨f, table, fuse, ⟨exit⟩⟩ (exit + 1) callee.entry routine.code := by
  induction functions generalizing next object with
  | nil => contradiction
  | cons g gs ih =>
    obtain ⟨routine, next', rest, first, others, rfl⟩ := compileAll_cons_ok h
    obtain ⟨callee, entry, code, rfl⟩ := CheckedFunction.compile_ok first
    unfold Lowered.numbered at found
    rw [List.lookup_cons] at found
    split at found
    · cases found
      exact ⟨[], routine, rest.routines, callee, rfl, entry, code⟩
    · obtain ⟨before, routine', after, callee', eq, entry', code'⟩ := ih others found
      exact ⟨routine :: before, routine', after, callee', by rw [eq]; rfl, entry', code'⟩

/-- Every function has been generated, and its code is among the routines. -/
theorem compileAll_mem {table : FunctionTable} {fuse : Bool} {functions : List CheckedFunction}
    {next : Nat} {object : Object} (h : compileAll table fuse functions next = .ok object)
    {f : CheckedFunction} (mem : f ∈ functions) :
    ∃ before routine after exit next', object.routines = before ++ routine :: after ∧
      f.compile table fuse exit = .ok (routine, next') := by
  induction functions generalizing next object with
  | nil => exact absurd mem List.not_mem_nil
  | cons g gs ih =>
    obtain ⟨routine, next', rest, first, others, rfl⟩ := compileAll_cons_ok h
    rcases List.mem_cons.1 mem with rfl | behind
    · exact ⟨[], routine, rest.routines, next, next', rfl, first⟩
    · obtain ⟨before, routine', after, exit, next'', eq, compiles⟩ := ih others behind
      refine ⟨routine :: before, routine', after, exit, next'', ?_, compiles⟩
      rw [eq, List.cons_append]

/-- What linking a program goes through. -/
structure Linked (program : Program) (options : Options) (image : Image) where
  functions : List CheckedFunction
  object : Object
  checked : program.check = .ok functions
  compiled : compileAll (.build functions 0) options.fuse (layoutOrder functions) functions.length
    = .ok object
  laid : Image.ofRoutines object.routines = .ok image
  short : image.Addressable

/-- A program that links has gone through all of it. -/
theorem link_ok {program : Program} {options : Options} {image : Image}
    (h : program.link options = .ok image) (short : image.Addressable) :
    Nonempty (Linked program options image) := by
  unfold link at h
  obtain ⟨object, compiles, laid⟩ := Check.bind_ok h
  unfold compile at compiles
  obtain ⟨functions, checked, compiled⟩ := Check.bind_ok compiles
  exact ⟨functions, object, checked, compiled, laid, short⟩

namespace Linked

variable {program : Program} {options : Options} {image : Image} (l : Linked program options image)

/-- The functions by name. -/
def table : FunctionTable :=
  .build l.functions 0

/-- The image at its place. -/
def scene (grid : Grid) : Scene where
  all := l.object.routines.flatMap Routine.code
  code := image.code.toArray
  address := Layout.addressIn (Layout.positions 0 (l.object.routines.flatMap Routine.code))
  grid := grid
  laid := Layout.Laid.of_ofRoutines l.laid l.short

/-- The functions are accepted. -/
theorem accepts : program.Accepts l.functions :=
  check_ok l.checked

/-- The code of a function at its place, which is one of the routines. -/
structure Placement (grid : Grid) (name : String) (callee : Callee) extends
    (l.scene grid).Holding l.functions l.table options.fuse name callee where
  before : List Routine
  routine : Routine
  after : List Routine
  split : l.object.routines = before ++ routine :: after
  front_eq : front = before.flatMap Routine.code
  block_eq : block = routine.code

/-- The code of every function is one of the routines. -/
theorem exists_placement (grid : Grid) {name : String} {callee : Callee}
    (found : l.table.find? name = some callee) : Nonempty (l.Placement grid name callee) := by
  obtain ⟨f, mem, named, params, -⟩ := FunctionTable.of_find?_build found
  obtain ⟨g, exit, known⟩ : ∃ g exit, ((l.scene grid).world l.functions).find? name = some (g, exit) :=
    Lowered.exists_lookup_numbered ⟨f, mem_layoutOrder.2 mem, named⟩
  obtain ⟨mem', named'⟩ := Lowered.of_lookup_numbered known
  obtain rfl := l.accepts.unique mem (mem_layoutOrder.1 mem') (named.trans named'.symm)
  obtain ⟨before, routine, after, callee', split, entry, code⟩ := compileAll_ok l.compiled known
  obtain rfl : callee = callee' := by
    rw [named] at entry
    exact Option.some.inj (found.symm.trans entry)
  obtain ⟨decl, -, declared⟩ := exists_declared l.accepts.pairs mem
  refine ⟨⟨f, exit, before.flatMap Routine.code, routine.code, named, known, declared.fit.few,
    params.symm, declared.params_le, code, ?_⟩, before, routine, after, split, rfl, rfl⟩
  show _ <+: l.object.routines.flatMap Routine.code
  rw [split, List.flatMap_append, List.flatMap_cons, ← List.append_assoc]
  exact List.prefix_append _ _

/-- The code of every function stands somewhere. -/
theorem holds (grid : Grid) : (l.scene grid).Holds l.functions l.table options.fuse :=
  fun _ _ found => (l.exists_placement grid found).map Placement.toHolding

/-- The code of `main` comes first. -/
theorem main (grid : Grid) : ∃ callee, l.table.find? mainName = some callee ∧ callee.params = 0 ∧
    ((l.scene grid).address callee.entry).toInt64 = 0 := by
  obtain ⟨f, mem, named, no_params, -⟩ := l.accepts.main
  have is_main : f.isMain = true := CheckedFunction.isMain_iff.2 named
  -- `main` is the only function of its name, and so it is the first one that is laid out.
  obtain ⟨g, rest, first⟩ : ∃ g rest, l.functions.filter (·.isMain) = g :: rest :=
    List.exists_cons_of_ne_nil (List.ne_nil_of_mem (List.mem_filter.2 ⟨mem, is_main⟩))
  have chosen : g ∈ l.functions ∧ g.isMain = true := by
    rw [← List.mem_filter, first]
    exact List.mem_cons_self
  obtain rfl : g = f :=
    l.accepts.unique chosen.1 mem ((eq_of_beq chosen.2).trans named.symm)
  have compiled := l.compiled
  unfold layoutOrder at compiled
  rw [first, List.cons_append, compileAll] at compiled
  obtain ⟨⟨routine, next⟩, compiles, h⟩ := Check.bind_ok compiled
  obtain ⟨others, -, h⟩ := Check.bind_ok h
  obtain ⟨callee, found, code, -⟩ := CheckedFunction.compile_ok compiles
  obtain ⟨back, starts⟩ := code.starts
  have routines := congrArg Object.routines (Except.ok.inj h)
  rw [named] at found
  obtain ⟨f', mem', named', params, -⟩ := FunctionTable.of_find?_build found
  obtain rfl := l.accepts.unique mem mem' (named.trans named'.symm)
  have stands : Layout.Stands (l.scene grid).all [] (.marker callee.entry :: back) := by
    show _ <+: l.object.routines.flatMap Routine.code
    rw [← routines, ← starts, List.nil_append, List.flatMap_cons]
    exact List.prefix_append _ _
  exact ⟨callee, found, params.trans no_params, Scene.address_eq stands⟩

/-- The evaluation of a program, with the addresses of its labels in the image. -/
def outcome (grid : Grid) (fuel : Nat) : Lowered.Outcome Unit :=
  Lowered.run l.functions grid (fun label => some ((l.scene grid).address ⟨label⟩).toInt64) fuel

/-- A machine that has not run does what the evaluation of the program says. -/
theorem realizes (grid : Grid) (fuel : Nat) :
    Machine.Realizes image.code.toArray (Machine.Keeps []) (fuel - 1) (.loaded grid)
      (l.outcome grid fuel) fun _ _ _ => False := by
  obtain ⟨callee, found, no_params, at_start⟩ := l.main grid
  have shows := Machine.loaded_shows grid
  rw [← at_start] at shows
  exact Scene.main_realizes (l.holds grid) found no_params shows

end Linked

end Program

end GridStack
