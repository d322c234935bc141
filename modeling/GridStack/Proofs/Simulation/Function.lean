import GridStack.Proofs.Simulation.Stmt

/-!
# Functions

When the code of every function of the table stands somewhere (`Scene.Holds`), every function does what
its evaluation says. This is by induction on the depth of calls, the fuel of the evaluation: the body is
run on the assumption that the functions it calls behave with one unit less. `main` has no caller when it
is started and comes to its end by a jump out of the code, so what it does is said apart
(`main_realizes`).
-/

namespace GridStack

namespace Scene

open Machine (Realizes Keeps place Path)
open Layout (Stands)

variable {s : Scene} {fuel : Nat} {functions : List CheckedFunction} {table : FunctionTable}
  {fuse : Bool}

/-- The code of a function, and what the evaluation knows about the function. -/
structure Holding (s : Scene) (functions : List CheckedFunction) (table : FunctionTable) (fuse : Bool)
    (name : String) (callee : Callee) where
  f : CheckedFunction
  exit : Nat
  front : List Instr
  block : List Instr
  name_eq : f.name = name
  known : (s.world functions).find? name = some (f, exit)
  few : f.vars.length ≤ maxVariables
  params_eq : f.params = callee.params
  params_le : f.params ≤ f.vars.length
  code : FunctionCode ⟨f, table, fuse, ⟨exit⟩⟩ (exit + 1) callee.entry block
  stands : Stands s.all front block

/-- The code of every function in the table stands somewhere. -/
def Holds (s : Scene) (functions : List CheckedFunction) (table : FunctionTable) (fuse : Bool) : Prop :=
  ∀ ⦃name : String⦄ ⦃callee : Callee⦄, table.find? name = some callee →
    Nonempty (s.Holding functions table fuse name callee)

/-- Arguments are popped into the registers of parameters. -/
theorem run_take {site : Site} (few : site.function.vars.length ≤ maxVariables)
    (params_le : site.function.params ≤ site.function.vars.length) {args : List Int64}
    (arity : args.length = site.function.params) (base : Int64) (cells : Cells) :
    View.run s.address s.grid (Code.take site) ⟨base, args.reverse, cells⟩
      = some ⟨base, [], { cells with vars := fun i =>
          if i < site.function.params then args[i]? else cells.vars i }⟩ := by
  have low : ∀ i ∈ (List.range site.function.params).reverse, i < 5 := by
    intro i mem
    rw [List.mem_reverse, List.mem_range] at mem
    exact index_lt_five (Nat.le_trans params_le few) mem
  -- The last argument is on top of the stack, and the first pop is that of the last parameter.
  have listed : (List.range site.function.params).map (fun i => args.getD i 0) = args := by
    refine List.ext_getElem (by simp [arity]) fun i hi hi' => ?_
    simp [hi']
  have order : args.reverse
      = (List.range site.function.params).reverse.map (fun i => args.getD i 0) ++ [] := by
    rw [List.map_reverse, listed, List.append_nil]
  have registers : Code.take site
      = ((List.range site.function.params).reverse.map Register.ofVar).map (.imm .pop) := by
    simp only [Code.take, List.map_reverse]
  rw [registers, order, run_pops low]
  unfold Cells.assign
  congr 3
  funext i
  by_cases hi : i < site.function.params
  · simp [hi, arity]
  · simp [hi]

/-- A function from its entry to the end of its body: the arguments are taken off the stack, and control
is behind the label that a return jumps to. -/
theorem body_runs {name : String} {callee : Callee} (h : s.Holding functions table fuse name callee)
    {call : String → List Int64 → Lowered Unit} (calls : s.Calls table fuel call)
    {args : List Int64} (arity : args.length = callee.params) :
    ∃ P, Stands s.all P (Code.leave ⟨h.f, table, fuse, ⟨h.exit⟩⟩) ∧
      s.Runs fuel (s.address callee.entry).toInt64 args.reverse
        (do
          Lowered.enter h.f args
          Lowered.stmts (s.world functions) h.f call fuel (h.exit + 1) h.f.body)
        (fun _ => place P) fun _ => [] := by
  obtain ⟨f, exit, front, block, name_eq, known, few, params_eq, params_le, ⟨body⟩, stands⟩ := h
  have at_entry : (s.address callee.entry).toInt64 = place (front ++ [Instr.marker callee.entry]) :=
    (address_eq stands.left).trans (place_marker callee.entry).symm
  refine ⟨_, stands.right.right.right.right, ?_⟩
  have enters : s.Runs fuel (place (front ++ [Instr.marker callee.entry])) args.reverse
      (Lowered.enter f args)
      (fun _ => place (front ++ [Instr.marker callee.entry] ++ Code.take ⟨f, table, fuse, ⟨exit⟩⟩))
      fun _ => [] :=
    Runs.of_block stands.right.left fun base cells _ =>
      ⟨(), _, rfl, run_take few params_le (arity.trans params_eq.symm) base cells⟩
  rw [at_entry]
  refine enters.bind fun _ _ => ?_
  refine (stmts_runs calls few f.body body stands.right.right.left).cast fun flow => ?_
  rw [place_marker]
  cases flow with
  | onward => rfl
  | returned => exact address_eq stands.right.right.right.left

/-- The end of `main` stops the machine. -/
theorem halt_realizes {α : Type} {site : Site} {front : List Instr} {m : Machine} {floor stack : List Int64}
    {base : Int64} {cells : Cells} {post : α → Cells → Machine → Prop} (main : site.function.isMain = true)
    (stands : Stands s.all front (Code.leave site))
    (shows : m.Shows s.grid (place front) floor ⟨base, stack, cells⟩) :
    Realizes s.code (Keeps floor) fuel m (Lowered.stop .halted cells) post := by
  unfold Code.leave at stands
  rw [if_pos main, ← List.append_nil (Code.jump _)] at stands
  obtain ⟨last, path, shows⟩ := Machine.jump_path s.laid stands shows
  exact ⟨2, last, path, shows.pc_eq, shows.log_eq⟩

/-- The end of any other function restores the caller's base, and the next step goes back. -/
theorem return_realizes {site : Site} {front : List Instr} {m : Machine} {rest : List Int64}
    {base saved ret : Int64} {cells : Cells} (other : site.function.isMain = false)
    (stands : Stands s.all front (Code.leave site))
    (shows : m.Shows s.grid (place front) (ret :: rest) ⟨base, [saved], cells⟩) :
    Realizes s.code (Keeps (ret :: rest)) fuel m (.value () cells) fun _ after m' =>
      ∃ next, m'.advance? s.code = some next ∧ next.Shows s.grid ret rest ⟨saved, [], after⟩ := by
  unfold Code.leave at stands
  rw [other] at stands
  obtain ⟨between, advances, shows'⟩ := Machine.advance_of_exec s.laid stands rfl shows rfl
  have lowered : between.Shows s.grid (place (front ++ [.imm .pop Register.base])) rest
      ⟨saved, [ret], cells⟩ := shows'.reframe rfl
  obtain ⟨last, back, shows''⟩ := Machine.advance_of_popPc s.laid stands.tail lowered rfl
  -- The pop of the program counter is no longer a part of the path: the caller makes it.
  exact ⟨1, between, .single shows.floor_suffix advances shows'.floor_suffix, last, back, shows''⟩

/-- Every function does what its evaluation says. -/
theorem function_calls (holds : s.Holds functions table fuse) :
    s.Calls table fuel (Lowered.function (s.world functions) fuel) := by
  induction fuel with
  | zero =>
    intro name callee args rest m base saved ret cells found arity shows
    exact ⟨0, m, Nat.le_refl 0, .here shows.floor_suffix, shows.log_eq⟩
  | succ fuel ih =>
    intro name callee args rest m base saved ret cells found arity shows
    obtain ⟨h⟩ := holds found
    obtain ⟨P, stands, runs⟩ := body_runs h ih arity
    rw [Lowered.function, h.known]
    dsimp only
    rw [← Lowered.bind_assoc]
    -- The caller's base lies below the arguments, and is on top when the body has come to its end.
    refine (runs.frame [saved] shows).bind fun flow after m' _ shows' => ?_
    cases main : h.f.isMain with
    | true => exact halt_realizes main stands shows'
    | false => exact return_realizes main stands shows'

/-- What `main` does when the machine is started at its entry: it never comes back. -/
theorem main_realizes (holds : s.Holds functions table fuse) {callee : Callee}
    (found : table.find? mainName = some callee) (no_params : callee.params = 0) {m : Machine} {base : Int64}
    {cells : Cells} (shows : m.Shows s.grid (s.address callee.entry).toInt64 [] ⟨base, [], cells⟩) :
    Realizes s.code (Keeps []) (fuel - 1) m
      (Lowered.function (s.world functions) fuel mainName [] cells) fun _ _ _ => False := by
  cases fuel with
  | zero => exact ⟨0, m, Nat.le_refl 0, .here shows.floor_suffix, shows.log_eq⟩
  | succ fuel =>
    obtain ⟨h⟩ := holds found
    have arity : ([] : List Int64).length = callee.params := no_params.symm
    obtain ⟨P, stands, runs⟩ := body_runs h (function_calls holds) arity
    have main : h.f.isMain = true := CheckedFunction.isMain_iff.2 h.name_eq
    rw [Lowered.function, h.known]
    dsimp only
    rw [← Lowered.bind_assoc, main]
    exact (runs shows).bind fun flow after m' _ shows' => halt_realizes main stands shows'

end Scene

end GridStack
