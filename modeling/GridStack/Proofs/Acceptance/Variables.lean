import GridStack.Program.Build
import GridStack.Proofs.Acceptance.Exact
import GridStack.Proofs.Draft.Alphabet
import Mathlib.Data.Set.Function

/-!
# The table of variables

The variables of a function are its parameters and its local variables, wherever in the body they stand, in
the order in which they are declared. The check threads a list through the statements that it goes through,
and rejects other mistakes on the way; when there are none, all that is left of it is that the names are
declared one by one (`FunctionDecl.check_eq`).

So an accepted function has these variables in its table, each has a register of its own, and the
parameters have those into which the arguments are popped (`FunctionDecl.Tabulated`). A function whose only
mistake is in the names is rejected at the first name that is declared for the second time or for which no
register is left (`FunctionDecl.check_tabulates`).
-/

namespace GridStack

/-- The register of a variable. -/
def CheckedFunction.register? (f : CheckedFunction) (name : String) : Option Int32 :=
  (f.variableIndex? name).map Register.ofVar

/-- Code for a variable names its register. -/
theorem Emit.register_eq (site : Site) (name : String) :
    Emit.register site name = match site.function.register? name with
      | some r => pure r
      | none => fail (.undeclaredVariable site.function.name name) := by
  unfold register CheckedFunction.register?
  cases site.function.variableIndex? name <;> rfl

namespace Check

variable {function : String} {returnsValue : Bool} {vars names : List String}

/-- A check whose condition holds succeeds. -/
theorem Decides.eq_ok {α : Type} {fault : CompileError → Prop} {x : Except CompileError α} {holds : Prop}
    {result : α} (h : Decides fault x holds result) (true : holds) : x = .ok result := by
  cases x with
  | error e => exact absurd true h.1
  | ok a => exact congrArg _ h.2

section Declare

/-- Adds names to the variables of a function, one by one. -/
def declareAll (function : String) : (names vars : List String) → Except CompileError (List String)
  | [], vars => .ok vars
  | name :: names, vars => do
    let vars ← declare function name vars
    declareAll function names vars

/-- A single name. -/
theorem declareAll_singleton (name : String) : declareAll function [name] vars = declare function name vars := by
  rw [declareAll]
  cases declare function name vars <;> rfl

/-- Names that are declared behind others. -/
theorem declareAll_append (names' : List String) : declareAll function (names ++ names') vars
    = declareAll function names vars >>= declareAll function names' := by
  induction names generalizing vars with
  | nil => rfl
  | cons name names ih =>
    rw [List.cons_append, declareAll, declareAll]
    cases declare function name vars with
    | error e => rfl
    | ok vars => exact ih

/-- Why a name cannot be declared behind others. -/
inductive Conflict (function : String) (before : List String) (name : String) : CompileError → Prop
  | repeated (mem : name ∈ before) : Conflict function before name (.redeclared function name)
  | crowded (fresh : name ∉ before) (full : before.length = maxVariables) :
      Conflict function before name (.tooManyVariables function name)

/-- The report on a conflict is about the function and the name. -/
theorem Conflict.scope {before : List String} {name : String} {e : CompileError}
    (h : Conflict function before name e) : ∃ reason, e.diagnostic = .scope function name reason := by
  cases h with
  | repeated => exact ⟨_, rfl⟩
  | crowded => exact ⟨_, rfl⟩

/-- A name for which there is no room behind others is refused. -/
theorem declare_conflict {name : String} (fit : Fit vars) (conflict : ¬ Fit (vars ++ [name])) :
    ∃ e, declare function name vars = .error e ∧ Conflict function vars name e := by
  unfold declare
  by_cases mem : name ∈ vars
  · rw [if_pos mem]
    exact ⟨_, rfl, .repeated mem⟩
  · rw [if_neg mem]
    have full : maxVariables < vars.length + 1 := by
      by_contra room
      refine conflict ⟨fit.nodup.append (List.nodup_singleton name) ?_, ?_⟩
      · exact List.disjoint_singleton.2 mem
      · rw [List.length_append, List.length_singleton]
        omega
    rw [if_pos full]
    have few := fit.few
    exact ⟨_, rfl, .crowded mem (by omega)⟩

/-- Of names for which there is no room the first one is refused that does not fit behind those in front of
it. -/
theorem declareAll_conflict (fit : Fit vars) (conflict : ¬ Fit (vars ++ names)) :
    ∃ before name after e, names = before ++ name :: after ∧ Fit (vars ++ before) ∧
      declareAll function names vars = .error e ∧ Conflict function (vars ++ before) name e := by
  induction names generalizing vars with
  | nil =>
    rw [List.append_nil] at conflict
    exact absurd fit conflict
  | cons name rest ih =>
    rw [declareAll]
    by_cases fits : Fit (vars ++ [name])
    · -- The name is declared, and the conflict is behind it.
      rw [List.append_cons] at conflict
      obtain ⟨before, other, after, e, rfl, fit', fails, why⟩ := ih fits conflict
      rw [← List.append_cons] at fit' why
      refine ⟨name :: before, other, after, e, rfl, fit', ?_, why⟩
      rw [(declare_decides fit name).eq_ok fits]
      exact fails
    · obtain ⟨e, fails, why⟩ := declare_conflict fit fits
      refine ⟨[], name, rest, e, rfl, by rwa [List.append_nil], ?_, by rwa [List.append_nil]⟩
      rw [fails]
      rfl

end Declare

section Sound

/-- Of a local declaration as it should be only the declaration of its name is left. -/
theorem declaration_eq {decl : VarDecl} (sound : (Stmt.declare decl).Sound returnsValue) :
    declaration function decl vars = declareAll function (Stmt.declare decl).declared vars := by
  obtain ⟨type, modifiers, declarators⟩ := decl
  obtain ⟨⟨int, plain, name, init, single⟩, operands⟩ := sound
  obtain rfl : declarators = [⟨name, some init⟩] := single
  have formed : ∀ e ∈ init.parts, e.Formed := by
    rw [Stmt.operands, List.filterMap_cons, List.filterMap_nil, Expr.partsOfAll, Expr.partsOfAll,
      List.append_nil] at operands
    exact operands
  rw [Stmt.declared, List.map_singleton, declareAll_singleton, declaration, if_neg (not_not.2 int)]
  dsimp only
  rw [if_neg (not_not.2 plain), (value_decides init).eq_ok formed]
  cases declare function name vars <;> rfl

/-- A statement as it should be that declares nothing, and has no statement in it. -/
theorem leaf_eq {s : Stmt} {x : Except CompileError Unit} (none : s.declared = [])
    (h : Decides (CompileError.Blames function) x (s.Sound returnsValue) ())
    (sound : ∀ t ∈ [s], t.Sound returnsValue) :
    (do x; return vars) = declareAll function ([s].flatMap Stmt.declared) vars := by
  rw [h.eq_ok (List.forall_mem_singleton.1 sound), List.flatMap_singleton, none]
  rfl

/-- The condition of a statement as it should be. -/
theorem cond_eq {s : Stmt} {cond : Expr} (operands : s.operands = [cond]) (sound : s.Sound returnsValue) :
    value function cond = .ok () := by
  refine (value_decides cond).eq_ok ?_
  have formed := sound.2
  rwa [operands, Expr.partsOfAll, Expr.partsOfAll, List.append_nil] at formed

mutual

/-- Of a statement whose parts are as they should be only the declaration of names is left. -/
theorem stmt_eq (s : Stmt) {vars : List String} (sound : ∀ t ∈ s.parts, t.Sound returnsValue) :
    stmt function returnsValue s vars = declareAll function (s.parts.flatMap Stmt.declared) vars := by
  match s with
  | .block body =>
    rw [Stmt.parts, List.forall_mem_cons] at sound
    rw [stmt, Stmt.parts]
    exact stmts_eq body sound.2
  | .expr e =>
    rw [Stmt.parts] at sound
    rw [stmt, Stmt.parts]
    exact leaf_eq rfl (effect_decides e) sound
  | .declare decl =>
    rw [Stmt.parts, List.forall_mem_singleton] at sound
    rw [stmt, Stmt.parts, List.flatMap_singleton]
    exact declaration_eq sound
  | .branch cond yes no =>
    rw [Stmt.parts, List.forall_mem_cons, List.forall_mem_append] at sound
    rw [stmt, Stmt.parts, cond_eq rfl sound.1, List.flatMap_cons, List.flatMap_append]
    have first : stmt function returnsValue yes vars
      = declareAll function (yes.parts.flatMap Stmt.declared) vars := stmt_eq yes sound.2.1
    -- The second arm goes on with the variables that the first one leaves behind.
    calc (do let vars ← stmt function returnsValue yes vars; alternative function returnsValue no vars)
      _ = (do
          let vars ← declareAll function (yes.parts.flatMap Stmt.declared) vars
          declareAll function ((Stmt.alternativeParts no).flatMap Stmt.declared) vars) := by
        rw [first]
        exact bind_congr fun vars => alternative_eq no sound.2.2
      _ = declareAll function _ vars := (declareAll_append _).symm
  | .loop cond body =>
    rw [Stmt.parts, List.forall_mem_cons] at sound
    rw [stmt, Stmt.parts, cond_eq rfl sound.1]
    exact stmt_eq body sound.2
  | .ret value =>
    rw [Stmt.parts] at sound
    rw [stmt, Stmt.parts]
    exact leaf_eq rfl (result_decides value) sound

/-- Of statements whose parts are as they should be only the declaration of names is left. -/
theorem stmts_eq (ss : List Stmt) {vars : List String}
    (sound : ∀ t ∈ Stmt.partsOfAll ss, t.Sound returnsValue) : stmts function returnsValue ss vars
      = declareAll function ((Stmt.partsOfAll ss).flatMap Stmt.declared) vars := by
  match ss with
  | [] =>
    rw [stmts, Stmt.partsOfAll]
    rfl
  | s :: rest =>
    rw [Stmt.partsOfAll, List.forall_mem_append] at sound
    rw [stmts, Stmt.partsOfAll, List.flatMap_append, declareAll_append, stmt_eq s sound.1]
    exact bind_congr fun vars => stmts_eq rest sound.2

/-- Of the second arm of a branch whose parts are as they should be only the declaration of names is left. -/
theorem alternative_eq (no : Option Stmt) {vars : List String}
    (sound : ∀ t ∈ Stmt.alternativeParts no, t.Sound returnsValue) :
    alternative function returnsValue no vars
      = declareAll function ((Stmt.alternativeParts no).flatMap Stmt.declared) vars := by
  match no with
  | none =>
    rw [alternative, Stmt.alternativeParts]
    rfl
  | some s =>
    rw [Stmt.alternativeParts] at sound
    rw [alternative, Stmt.alternativeParts]
    exact stmt_eq s sound

end

/-- Of parameters that have the type of words only the declaration of names is left. -/
theorem params_eq {ps : List Param} (int : ∀ p ∈ ps, p.type = .int) :
    params function ps vars = declareAll function (ps.map Param.name) vars := by
  induction ps generalizing vars with
  | nil => rfl
  | cons p ps ih =>
    rw [List.forall_mem_cons] at int
    rw [params, if_neg (not_not.2 int.1), List.map_cons, declareAll]
    exact bind_congr fun vars => ih int.2

end Sound

end Check

namespace FunctionDecl

/-- A function that keeps all rules but one: two of its variables may have one name, and there may be more of
them than registers. -/
structure Shaped (decl : FunctionDecl) : Prop where
  plain : decl.modifiers = [] ∧ decl.typeParams = [] ∧ decl.throws = []
  reserved : decl.name ≠ printName
  result : decl.returnType = .int ∨ decl.returnType = .void
  params : ∀ param ∈ decl.params, param.type = .int
  body : ∀ s ∈ Stmt.partsOfAll decl.body, s.Sound (decl.returnType = .int)

/-- The rule that is left out is the one on the names. -/
theorem formed_iff (decl : FunctionDecl) : decl.Formed ↔ decl.Shaped ∧ Fit decl.names :=
  ⟨fun ⟨plain, reserved, result, params, fit, body⟩ => ⟨⟨plain, reserved, result, params, body⟩, fit⟩,
    fun ⟨⟨plain, reserved, result, params, body⟩, fit⟩ => ⟨plain, reserved, result, params, fit, body⟩⟩

/-- The check of a function without other mistakes declares its names one by one. -/
theorem check_eq {decl : FunctionDecl} (shaped : decl.Shaped) : decl.check = (do
    let vars ← Check.declareAll decl.name decl.names []
    return { decl.checked with vars }) := by
  obtain ⟨plain, reserved, result, params, body⟩ := shaped
  have returns : decl.returnsValue = .ok (decide (decl.returnType = .int)) := by
    unfold returnsValue
    rcases result with int | void
    · rw [int]
      rfl
    · rw [void]
      rfl
  have bare : ¬ (decl.modifiers ≠ [] ∨ decl.typeParams ≠ [] ∨ decl.throws ≠ []) := by
    simpa only [not_or, not_not] using plain
  rw [check, if_neg bare, if_neg reserved, returns, names, Check.declareAll_append]
  -- What is left are the parameters, and behind them the body.
  show (do
    let vars ← Check.params decl.name decl.params []
    let vars ← Check.stmts decl.name (decide (decl.returnType = TypeName.int)) decl.body vars
    return { decl.checked with vars }) = _
  rw [Check.params_eq params, bind_assoc]
  exact bind_congr fun vars => by rw [Check.stmts_eq decl.body body]

/-- The variables of a function that passed the check, with their indices and registers. -/
structure Tabulated (decl : FunctionDecl) (f : CheckedFunction) : Prop where
  /-- The parameters come first, and then the local variables in the order of their declarations. -/
  order : f.vars = decl.names
  distinct : f.vars.Nodup
  few : f.vars.length ≤ 5
  /-- The index of a variable is its position. -/
  position : ∀ name index, f.variableIndex? name = some index ↔ f.vars[index]? = some name
  /-- Names and indices correspond to each other. -/
  bijective : Set.BijOn f.variableIndex? {name | name ∈ decl.names} (some '' Set.Iio f.vars.length)
  /-- Every variable has a register, which is the one that code for it names. -/
  registers : ∀ name ∈ decl.names, ∃ r, f.register? name = some r ∧ 3 ≤ r.toInt ∧ r.toInt ≤ 7 ∧
    ∀ site : Site, site.function = f → Emit.register site name = pure r
  /-- No two variables have the same one. -/
  apart : Set.InjOn f.register? {name | name ∈ decl.names}
  /-- The code of the function begins with pops into the registers of the parameters, the last one first. -/
  prologue : ∀ table fuse next routine next', f.compile table fuse next = .ok (routine, next') →
    ∃ (dests : List Int32) (rest : List Instr),
      decl.params.map (fun param => f.register? param.name) = dests.map some ∧
        routine.code = .marker routine.entry :: (dests.reverse.map (.imm .pop) ++ rest)

end FunctionDecl

namespace CheckedFunction

variable {f : CheckedFunction}

/-- The index of a variable is its position, if all variables have different names. -/
theorem variableIndex?_eq_some_iff (distinct : f.vars.Nodup) {name : String} {index : Nat} :
    f.variableIndex? name = some index ↔ f.vars[index]? = some name := by
  unfold variableIndex?
  rw [List.idxOf?_eq_some_iff, List.getElem?_eq_some_iff]
  constructor
  · rintro ⟨inside, at_index, -⟩
    exact ⟨inside, at_index⟩
  · rintro ⟨inside, rfl⟩
    refine ⟨inside, rfl, fun j before same => ?_⟩
    exact absurd (distinct.getElem_inj_iff.1 same) (Nat.ne_of_lt before)

/-- Variables with different names correspond to the indices. -/
theorem bijOn_variableIndex? (distinct : f.vars.Nodup) :
    Set.BijOn f.variableIndex? {name | name ∈ f.vars} (some '' Set.Iio f.vars.length) := by
  refine ⟨?_, ?_, ?_⟩
  · -- Every name has an index,
    intro name mem
    obtain ⟨index, at_index⟩ := List.getElem?_of_mem mem
    obtain ⟨inside, -⟩ := List.getElem?_eq_some_iff.1 at_index
    exact ⟨index, inside, ((variableIndex?_eq_some_iff distinct).2 at_index).symm⟩
  · -- names with one index stand at one position,
    intro name mem other mem' same
    obtain ⟨index, at_index⟩ := List.getElem?_of_mem mem
    have first := (variableIndex?_eq_some_iff distinct).2 at_index
    have second := (variableIndex?_eq_some_iff distinct).1 (same.symm.trans first)
    exact Option.some.inj (at_index.symm.trans second)
  · -- and the name at a position has its index, as it does not stand earlier.
    rintro _ ⟨index, inside, rfl⟩
    have at_index := List.getElem?_eq_getElem inside
    exact ⟨f.vars[index], List.getElem_mem inside, (variableIndex?_eq_some_iff distinct).2 at_index⟩

/-- Variables with different names have different registers, if there are no more of them than registers. -/
theorem injOn_register? (fit : Fit f.vars) : Set.InjOn f.register? {name | name ∈ f.vars} := by
  have index := bijOn_variableIndex? fit.nodup
  intro name mem other mem' same
  obtain ⟨i, inside, first⟩ := index.mapsTo mem
  obtain ⟨j, inside', second⟩ := index.mapsTo mem'
  refine index.injOn mem mem' ?_
  -- Indices of variables are so low that they can be told from the numbers of the registers.
  unfold register? at same
  rw [← first, ← second] at same ⊢
  have numbers := congrArg Int32.toInt (Option.some.inj same)
  rw [Register.toInt_ofVar (Nat.lt_of_lt_of_le inside fit.few),
    Register.toInt_ofVar (Nat.lt_of_lt_of_le inside' fit.few)] at numbers
  exact congrArg some (by omega)

/-- The code of a function begins with pops into the registers of its first variables, the last one first. -/
theorem prologue_of_compile {table : FunctionTable} {fuse : Bool} {next next' : Nat} {routine : Routine}
    (h : f.compile table fuse next = .ok (routine, next')) :
    ∃ rest, routine.code = .marker routine.entry ::
      (((List.range f.params).map Register.ofVar).reverse.map (.imm .pop) ++ rest) := by
  obtain ⟨callee, found, code, -⟩ := compile_ok h
  obtain ⟨-, entry⟩ := Program.routine_of_compile h
  rw [FunctionTable.entryOf, found] at entry
  rw [entry]
  generalize routine.code = block at code
  obtain ⟨body⟩ := code
  exact ⟨_, rfl⟩

end CheckedFunction

namespace FunctionDecl

variable {decl : FunctionDecl}

/-- An accepted function has a table of its names. -/
theorem tabulated_of_check {f : CheckedFunction} (accepted : decl.check = .ok f) : decl.Tabulated f := by
  have decides := decl.check_decides
  obtain rfl := decides.eq_of_ok accepted
  rw [accepted] at decides
  have fit : Fit decl.checked.vars := decides.1.fit
  have position : ∀ name index,
      decl.checked.variableIndex? name = some index ↔ decl.checked.vars[index]? = some name :=
    fun _ _ => CheckedFunction.variableIndex?_eq_some_iff fit.nodup
  refine
    { order := rfl
      distinct := fit.nodup
      few := fit.few
      position := position
      bijective := CheckedFunction.bijOn_variableIndex? fit.nodup
      registers := fun name mem => ?_
      apart := CheckedFunction.injOn_register? fit
      prologue := fun table fuse next routine next' compiles => ?_ }
  · obtain ⟨index, inside, found⟩ := (CheckedFunction.bijOn_variableIndex? fit.nodup).mapsTo mem
    have low : index < 5 := Nat.lt_of_lt_of_le inside fit.few
    have register : decl.checked.register? name = some (Register.ofVar index) := by
      rw [CheckedFunction.register?, ← found, Option.map_some]
    have number := Register.toInt_ofVar low
    refine ⟨Register.ofVar index, register, by omega, by omega, fun site same => ?_⟩
    rw [Emit.register_eq, same, register]
  · obtain ⟨rest, code⟩ := CheckedFunction.prologue_of_compile compiles
    refine ⟨_, rest, ?_, code⟩
    -- The parameters are the first variables, and so their indices are the first ones.
    refine List.ext_getElem (by simp [checked]) fun i inside _ => ?_
    rw [List.length_map] at inside
    have at_index : decl.checked.vars[i]? = some decl.params[i].name := by
      show (decl.params.map Param.name ++ _)[i]? = _
      rw [List.getElem?_append_left (by rwa [List.length_map]), List.getElem?_map,
        List.getElem?_eq_getElem inside]
      rfl
    simp only [List.getElem_map, List.getElem_range, CheckedFunction.register?, (position _ _).2 at_index,
      Option.map_some]

/-- A function with no other mistake than one in the names of its variables is rejected for the first of
them that does not fit behind those in front of it. -/
theorem rejected_of_shaped (shaped : decl.Shaped) (conflict : ¬ Fit decl.names) :
    ∃ before name after e, decl.names = before ++ name :: after ∧ Fit before ∧ decl.check = .error e ∧
      Check.Conflict decl.name before name e := by
  have rejected : ∃ before name after e, decl.names = before ++ name :: after ∧ Fit ([] ++ before) ∧
      Check.declareAll decl.name decl.names [] = .error e ∧ Check.Conflict decl.name ([] ++ before) name e :=
    Check.declareAll_conflict ⟨List.nodup_nil, Nat.zero_le _⟩ conflict
  obtain ⟨before, name, after, e, split, fit, fails, why⟩ := rejected
  refine ⟨before, name, after, e, split, fit, ?_, why⟩
  rw [check_eq shaped, fails]
  rfl

/-- The table of the variables of a function is in the order of their declarations. Names that do not fit
into it are rejected, the first one of them being named. -/
theorem check_tabulates (decl : FunctionDecl) :
    (∀ f, decl.check = .ok f → decl.Tabulated f) ∧
      (decl.Shaped → ¬ decl.names.Nodup ∨ 5 < decl.names.length →
        ∃ before name after e, decl.names = before ++ name :: after ∧ Fit before ∧ decl.check = .error e ∧
          Check.Conflict decl.name before name e ∧
            ∃ reason, e.diagnostic = .scope decl.name name reason) := by
  refine ⟨fun f => tabulated_of_check, fun shaped offends => ?_⟩
  have conflict : ¬ Fit decl.names := fun fit =>
    offends.elim (absurd fit.nodup) (Nat.not_lt_of_le fit.few)
  obtain ⟨before, name, after, e, split, fit, fails, why⟩ := rejected_of_shaped shaped conflict
  exact ⟨before, name, after, e, split, fit, fails, why, why.scope⟩

/-- A function whose variables are declared at several depths, the last ones behind all others. -/
def scattered (last : List String) : FunctionDecl :=
  .function "scattered" ["a", "b"]
    (.whileDo (.var "a") [.ifElse (.var "b") [.declareInt "c" (.int 1)] [.declareInt "d" (.int 2)]] ::
      last.map (Stmt.declareInt · (.var "c")) ++ [.give (.var "d")])

/-- A fifth variable has the last register, a name in use is refused although it is in use in another arm
only, and so is a sixth variable. -/
theorem check_tabulates_scattered :
    (∃ f, (scattered ["e"]).check = .ok f ∧ f.vars = ["a", "b", "c", "d", "e"] ∧
      (scattered ["e"]).Tabulated f) ∧
    (∃ before name after e, ["a", "b", "c", "d", "c"] = before ++ name :: after ∧ Fit before ∧
      (scattered ["c"]).check = .error e ∧ Check.Conflict "scattered" before name e) ∧
    (∃ before name after e, ["a", "b", "c", "d", "e", "f"] = before ++ name :: after ∧ Fit before ∧
      (scattered ["e", "f"]).check = .error e ∧ Check.Conflict "scattered" before name e) := by
  have shaped : (scattered ["c"]).Shaped ∧ (scattered ["e", "f"]).Shaped := by
    constructor
    all_goals
      refine ⟨⟨rfl, rfl, rfl⟩, by decide, .inl rfl, ?_, ?_⟩
      · simp [scattered, function, plain, Param.int]
      · simp [scattered, function, plain, Stmt.partsOfAll, Stmt.parts, Stmt.alternativeParts, Stmt.Sound,
          Stmt.Formed, Stmt.operands, Expr.partsOfAll, Expr.parts, Expr.Formed, Stmt.whileDo, Stmt.ifElse,
          Stmt.declareInt, Stmt.give]
  refine ⟨?_, ?_, ?_⟩
  · obtain ⟨f, accepted, vars⟩ : ∃ f, (scattered ["e"]).check = .ok f ∧ f.vars = ["a", "b", "c", "d", "e"] :=
      ⟨_, by rfl, by rfl⟩
    exact ⟨f, accepted, vars, (check_tabulates _).1 f accepted⟩
  · obtain ⟨before, name, after, e, split, fit, fails, why, -⟩ :=
      (check_tabulates (scattered ["c"])).2 shaped.1 (.inl (by decide))
    exact ⟨before, name, after, e, split, fit, fails, why⟩
  · obtain ⟨before, name, after, e, split, fit, fails, why, -⟩ :=
      (check_tabulates (scattered ["e", "f"])).2 shaped.2 (.inr (by decide))
    exact ⟨before, name, after, e, split, fit, fails, why⟩

end FunctionDecl

end GridStack
