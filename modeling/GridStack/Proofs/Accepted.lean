import GridStack.Proofs.Acceptance.Checking
import Mathlib.Data.List.Forall2

/-!
# What acceptance means

What is known of functions that passed the check: their variables are all different, fit into the
registers and begin with the parameters (`FunctionDecl.Accepts`), and their names are all different
(`Program.check_ok`). All of it is read off the rules that the check decides.
-/

namespace GridStack

/-- Two checks that succeed together succeed one by one. -/
theorem Check.bind_ok {α β : Type} {x : Except CompileError α} {f : α → Except CompileError β}
    {result : β} (h : x >>= f = .ok result) : ∃ a, x = .ok a ∧ f a = .ok result :=
  CompileError.bind_eq_ok_iff.1 h

/-- What is kept of a function that passed the check. -/
structure FunctionDecl.Accepts (decl : FunctionDecl) (f : CheckedFunction) : Prop where
  name_eq : f.name = decl.name
  params_eq : f.params = decl.params.length
  body_eq : f.body = decl.body
  returns : decl.returnsValue = .ok f.returnsValue
  /-- The parameters are the first variables. -/
  params_prefix : decl.params.map Param.name <+: f.vars
  fit : Fit f.vars

/-- What is kept of a function that is formed as it should be. -/
theorem FunctionDecl.Formed.accepts {decl : FunctionDecl} (formed : decl.Formed) :
    decl.Accepts decl.checked where
  name_eq := rfl
  params_eq := rfl
  body_eq := rfl
  returns := by
    unfold FunctionDecl.returnsValue FunctionDecl.checked
    rcases formed.result with int | void
    · rw [int]
      rfl
    · rw [void]
      rfl
  params_prefix := List.prefix_append _ _
  fit := formed.fit

/-- Parameters are variables. -/
theorem FunctionDecl.Accepts.params_le {decl : FunctionDecl} {f : CheckedFunction} (h : decl.Accepts f) :
    f.params ≤ f.vars.length := by
  have le := h.params_prefix.length_le
  rw [List.length_map] at le
  rw [h.params_eq]
  exact le

namespace Program

/-- What the check of a program makes sure of. -/
structure Accepts (program : Program) (functions : List CheckedFunction) : Prop where
  pairs : List.Forall₂ FunctionDecl.Accepts program.functions functions
  nodup : (functions.map CheckedFunction.name).Nodup
  user : ∀ f ∈ functions, f.name ≠ inputName ∧ f.name ≠ outputName
  main : ∃ f ∈ functions, f.name = mainName ∧ f.params = 0 ∧ f.returnsValue = false

/-- A function that is declared passed the check. -/
theorem exists_checked {decls : List FunctionDecl} {functions : List CheckedFunction}
    (h : List.Forall₂ FunctionDecl.Accepts decls functions) {decl : FunctionDecl} (mem : decl ∈ decls) :
    ∃ f ∈ functions, decl.Accepts f := by
  induction h with
  | nil => contradiction
  | cons accepts _ ih =>
    rcases List.mem_cons.1 mem with rfl | mem
    · exact ⟨_, List.mem_cons_self, accepts⟩
    · obtain ⟨f, mem, accepts⟩ := ih mem
      exact ⟨f, List.mem_cons_of_mem _ mem, accepts⟩

/-- A function that passed the check was declared. -/
theorem exists_declared {decls : List FunctionDecl} {functions : List CheckedFunction}
    (h : List.Forall₂ FunctionDecl.Accepts decls functions) {f : CheckedFunction} (mem : f ∈ functions) :
    ∃ decl ∈ decls, decl.Accepts f := by
  induction h with
  | nil => contradiction
  | cons accepts _ ih =>
    rcases List.mem_cons.1 mem with rfl | mem
    · exact ⟨_, List.mem_cons_self, accepts⟩
    · obtain ⟨decl, mem, accepts⟩ := ih mem
      exact ⟨decl, List.mem_cons_of_mem _ mem, accepts⟩

/-- A program that passes the check is accepted. -/
theorem check_ok {program : Program} {functions : List CheckedFunction}
    (h : program.check = .ok functions) : program.Accepts functions := by
  have decides := program.check_decides
  rw [h] at decides
  obtain ⟨⟨sorted, main⟩, rfl⟩ := decides
  refine ⟨?_, ?_, ?_, ?_⟩
  · exact List.forall₂_map_right_iff.2 (List.forall₂_same.2 fun decl mem => (sorted.formed decl mem).accepts)
  · rw [List.map_map]
    exact sorted.distinct
  · intro f mem
    obtain ⟨decl, declared, rfl⟩ := List.mem_map.1 mem
    exact sorted.reserved decl declared
  · obtain ⟨decl, mem, named, void, params⟩ := main
    refine ⟨decl.checked, List.mem_map_of_mem mem, named, ?_, ?_⟩
    · exact congrArg List.length params
    · exact decide_eq_false (by rw [void]; decide)

/-- Functions that have one name are one function. -/
theorem Accepts.unique {program : Program} {functions : List CheckedFunction}
    (h : program.Accepts functions) {f g : CheckedFunction} (mem : f ∈ functions) (mem' : g ∈ functions)
    (eq : f.name = g.name) : f = g :=
  List.inj_on_of_nodup_map h.nodup mem mem' eq

/-- The functions of a program are laid out in another order. -/
theorem mem_layoutOrder {functions : List CheckedFunction} {f : CheckedFunction} :
    f ∈ layoutOrder functions ↔ f ∈ functions := by
  unfold layoutOrder
  rw [List.mem_append, List.mem_filter, List.mem_filter]
  cases f.isMain <;> simp

/-- A function of the name of `main` is `main`, which has no parameters. -/
theorem Accepts.isMain {program : Program} {functions : List CheckedFunction}
    (h : program.Accepts functions) {f : CheckedFunction} (mem : f ∈ functions) (main : f.isMain = true) :
    f.name = mainName ∧ f.params = 0 := by
  have named : f.name = mainName := CheckedFunction.isMain_iff.1 main
  obtain ⟨g, mem', named', no_params, -⟩ := h.main
  rw [h.unique mem mem' (named.trans named'.symm)]
  exact ⟨named', no_params⟩

end Program

end GridStack
