import Mathlib
import GridStack.Program.Build
import GridStack.Proofs.Acceptance.Generation
import GridStack.Proofs.Image.Resolution
import GridStack.Proofs.Linked

/-!
# Acceptance is exact

A program links exactly when it keeps the rules of the language (`Program.link_isOk_iff`), and one that
does not link is told a function of its own that is at fault (`Program.link_blames`).

The check accepts the functions one by one and generation the names in them. What is left is layout, which
never fails: the entries are the first labels, one for each function, every function takes a range of
labels behind them, and these ranges lie side by side (`Program.compileAll_labels`).
-/

namespace GridStack

namespace FunctionTable

variable {functions : List CheckedFunction} {next : Nat}

/-- The label of the entry of a function that is in the table. -/
def entryOf (table : FunctionTable) (f : CheckedFunction) : Label :=
  ((table.find? f.name).map Callee.entry).getD default

/-- A function is found under its name, if no other has this name, with the label of its number. -/
theorem find?_build (distinct : (functions.map CheckedFunction.name).Nodup) {i : Nat} {f : CheckedFunction}
    (at_index : functions[i]? = some f) :
    (build functions next).find? f.name = some ⟨f.params, f.returnsValue, ⟨next + i⟩⟩ := by
  have names : (build functions next).map Prod.fst = (functions.map CheckedFunction.name).reverse := by
    unfold build
    rw [List.map_reverse, List.map_map]
    calc ((functions.zipIdx next).map (CheckedFunction.name ∘ Prod.fst)).reverse
      _ = (((functions.zipIdx next).map Prod.fst).map CheckedFunction.name).reverse := by rw [List.map_map]
      _ = (functions.map CheckedFunction.name).reverse := by rw [List.zipIdx_map_fst]
  have mem : (f.name, ⟨f.params, f.returnsValue, ⟨next + i⟩⟩) ∈ build functions next := by
    refine List.mem_reverse.2 (List.mem_map.2 ⟨(f, next + i), ?_, rfl⟩)
    exact List.mk_add_mem_zipIdx_iff_getElem?.2 at_index
  -- The table is looked up from the end, but as names are different nothing is found before the function.
  obtain ⟨before, after, split⟩ := List.append_of_mem mem
  refine List.lookup_eq_some_iff.2 ⟨before, after, split, fun pair mem => ?_⟩
  have unique : ((build functions next).map Prod.fst).Nodup := by
    rw [names]
    exact List.nodup_reverse.2 distinct
  rw [split, List.map_append, List.map_cons, List.nodup_append] at unique
  rw [bne_iff_ne]
  exact fun eq => unique.2.2 pair.1 (List.mem_map_of_mem mem) f.name List.mem_cons_self eq.symm

/-- The entries of functions are the first labels. -/
theorem entry_lt {name : String} {callee : Callee} (h : (build functions next).find? name = some callee) :
    next ≤ callee.entry.id ∧ callee.entry.id < next + functions.length := by
  obtain ⟨f, label, indexed, -, rfl⟩ := exists_of_find?_build h
  exact ⟨List.le_snd_of_mem_zipIdx indexed, List.snd_lt_add_of_mem_zipIdx indexed⟩

/-- The entries of functions, in the order of the functions. -/
theorem map_entryOf_build (distinct : (functions.map CheckedFunction.name).Nodup) :
    functions.map (entryOf (build functions 0)) = Label.range 0 functions.length := by
  refine List.ext_getElem (by simp [Label.range]) fun i inside _ => ?_
  rw [List.length_map] at inside
  rw [List.getElem_map, entryOf, find?_build distinct (List.getElem?_eq_getElem inside)]
  simp [Label.range]

end FunctionTable

namespace Program

/-- The routine of a function has its name and the entry that the table says. -/
theorem routine_of_compile {f : CheckedFunction} {table : FunctionTable} {fuse : Bool} {next next' : Nat}
    {routine : Routine} (h : f.compile table fuse next = .ok (routine, next')) :
    routine.name = f.name ∧ routine.entry = table.entryOf f := by
  unfold CheckedFunction.compile at h
  unfold FunctionTable.entryOf
  cases found : table.find? f.name with
  | none =>
    rw [found] at h
    contradiction
  | some callee =>
    rw [found] at h
    obtain ⟨r, -, h⟩ := Check.bind_ok h
    cases h
    exact ⟨rfl, rfl⟩

/-- The labels of functions that are compiled: each function places its entry, and the others are a range
that begins with the first free label and is as long as the functions say. -/
theorem compileAll_labels {table : FunctionTable} {fuse : Bool} {functions : List CheckedFunction}
    {next : Nat} {object : Object} (h : compileAll table fuse functions next = .ok object) :
    object.labels = next + (functions.map CheckedFunction.labels).sum ∧
      object.routines.map Routine.entry = functions.map table.entryOf ∧
      (Code.marks (object.routines.flatMap Routine.code)).Perm
        (object.routines.map Routine.entry ++ Label.range next (functions.map CheckedFunction.labels).sum) ∧
      ∀ i ∈ object.routines.flatMap Routine.code, i.Tidy fun label =>
        (next ≤ label.id ∧ label.id < next + (functions.map CheckedFunction.labels).sum) ∨
          ∃ name callee, table.find? name = some callee ∧ label = callee.entry := by
  induction functions generalizing next object with
  | nil =>
    cases h
    exact ⟨rfl, rfl, .refl _, List.forall_mem_nil _⟩
  | cons f fs ih =>
    obtain ⟨routine, next', rest, first, others, rfl⟩ := compileAll_cons_ok h
    obtain ⟨callee, found, code, rfl⟩ := CheckedFunction.compile_ok first
    obtain ⟨tidy, marks⟩ := functionCode_labels code
    have own : (Code.marks routine.code).Perm (table.entryOf f :: Label.range next f.labels) := by
      rw [FunctionTable.entryOf, found, CheckedFunction.labels, ← Label.range_append]
      exact marks
    obtain ⟨labels, entries, marks', tidy'⟩ := ih others
    have behind : next + 1 + Stmt.labelsOfAll f.body = next + f.labels := Nat.add_assoc _ _ _
    have total : ((f :: fs).map CheckedFunction.labels).sum
        = f.labels + (fs.map CheckedFunction.labels).sum := List.sum_cons
    rw [behind] at labels marks' tidy'
    rw [total]
    -- The ranges of the first function and of the others lie side by side.
    refine ⟨by rw [labels, Nat.add_assoc], ?_, ?_, ?_⟩
    · rw [List.map_cons, List.map_cons, (routine_of_compile first).2, entries]
    · rw [List.flatMap_cons, Code.marks_append, List.map_cons, (routine_of_compile first).2,
        ← Label.range_append]
      exact (own.append marks').trans (.cons _ (List.perm_append_comm_assoc _ _ _))
    · rw [List.flatMap_cons, List.forall_mem_append]
      constructor
      · refine fun i mem => (tidy i mem).mono fun label named => ?_
        rcases named with range | rfl | outer
        · dsimp only at range
          exact .inl (by omega)
        · exact .inl (by dsimp only; omega)
        · exact .inr outer
      · refine fun i mem => (tidy' i mem).mono fun label => Or.imp_left fun range => ?_
        omega

/-- All labels that functions with different names take are placed once, and no others are named: the first
ones are the entries that calls name, and the others come behind them. -/
theorem compileAll_placed {functions : List CheckedFunction} {fuse : Bool} {object : Object}
    (distinct : (functions.map CheckedFunction.name).Nodup)
    (h : compileAll (.build functions 0) fuse (layoutOrder functions) functions.length = .ok object) :
    (Code.marks (object.routines.flatMap Routine.code)).Perm (Label.range 0 object.labels) ∧
      ∀ i ∈ object.routines.flatMap Routine.code, ∀ label ∈ i.targets, label.id < object.labels := by
  obtain ⟨labels, entries, marks, tidy⟩ := compileAll_labels h
  have order : (layoutOrder functions).Perm functions := List.filter_append_perm _ _
  -- The entries are the labels that the table took first, and the others come behind them.
  have first : (object.routines.map Routine.entry).Perm (Label.range 0 functions.length) := by
    rw [entries, ← FunctionTable.map_entryOf_build distinct]
    exact order.map _
  constructor
  · rw [labels, ← Label.range_append, Nat.zero_add]
    exact marks.trans (first.append_right _)
  · intro i mem label named
    rw [labels]
    rcases (tidy i mem).2 label named with own | ⟨name, callee, found, rfl⟩
    · exact own.2
    · have entry := FunctionTable.entry_lt found
      omega

/-- The code of functions with different names can be laid out, as all labels are different and those that
are named are placed. -/
theorem exists_ofRoutines {functions : List CheckedFunction} {fuse : Bool} {object : Object}
    (distinct : (functions.map CheckedFunction.name).Nodup)
    (h : compileAll (.build functions 0) fuse (layoutOrder functions) functions.length = .ok object) :
    ∃ image, Image.ofRoutines object.routines = .ok image := by
  obtain ⟨placed, named⟩ := compileAll_placed distinct h
  obtain ⟨-, -, marks, -⟩ := compileAll_labels h
  refine Image.exists_ofRoutines ?_ ?_ ?_
  · exact placed.nodup_iff.2 (List.Nodup.map (fun _ _ => Label.mk.inj) List.nodup_range')
  · intro i mem label target
    rw [placed.mem_iff, Label.mem_range, Nat.zero_add]
    exact ⟨Nat.zero_le _, named i mem label target⟩
  · intro routine mem
    exact marks.mem_iff.2 (List.mem_append_left _ (List.mem_map_of_mem mem))

/-- What names mean in a function that passed the check is what they mean in the program. -/
theorem scope_checked {program : Program} (distinct : (program.functions.map FunctionDecl.name).Nodup)
    (decl : FunctionDecl) :
    decl.checked.scope (.build (program.functions.map FunctionDecl.checked) 0) = decl.scope program := by
  have names : (program.functions.map FunctionDecl.checked).map CheckedFunction.name
      = program.functions.map FunctionDecl.name := List.map_map
  unfold CheckedFunction.scope FunctionDecl.scope
  congr 1
  funext name arity asValue
  refine propext ⟨?_, ?_⟩
  · rintro ⟨callee, found, params, value⟩
    obtain ⟨f, checked, named, params', returns⟩ := FunctionTable.of_find?_build found
    obtain ⟨other, mem, rfl⟩ := List.mem_map.1 checked
    refine ⟨other, mem, named, params'.symm.trans params, fun asked => ?_⟩
    exact of_decide_eq_true (returns.symm.trans (value asked))
  · rintro ⟨other, mem, rfl, rfl, value⟩
    obtain ⟨i, at_index⟩ := List.getElem?_of_mem (List.mem_map_of_mem (f := FunctionDecl.checked) mem)
    refine ⟨_, FunctionTable.find?_build (names ▸ distinct) at_index, rfl, fun asked => ?_⟩
    exact decide_eq_true (value asked)

variable {program : Program}

/-- Functions that passed the check are found by their names. -/
theorem isSome_find?_build {functions : List CheckedFunction}
    (distinct : (functions.map CheckedFunction.name).Nodup) {f : CheckedFunction} (mem : f ∈ functions) :
    ((FunctionTable.build functions 0).find? f.name).isSome := by
  obtain ⟨i, at_index⟩ := List.getElem?_of_mem mem
  rw [FunctionTable.find?_build distinct at_index]
  rfl

/-- Of functions that passed the check, generation settles whether the names in them have a meaning. -/
theorem generation_settles (sorted : Sorted [] program.functions) (fuse : Bool) :
    Check.Settles program.Fault
      (compileAll (.build (program.functions.map FunctionDecl.checked) 0) fuse
        (layoutOrder (program.functions.map FunctionDecl.checked))
        (program.functions.map FunctionDecl.checked).length)
      (∀ decl ∈ program.functions, decl.Closed program) := by
  have names : (program.functions.map FunctionDecl.checked).map CheckedFunction.name
      = program.functions.map FunctionDecl.name := List.map_map
  have declared : ∀ f ∈ layoutOrder (program.functions.map FunctionDecl.checked),
      ∃ decl ∈ program.functions, decl.checked = f :=
    fun f mem => List.mem_map.1 (mem_layoutOrder.1 mem)
  refine ((compileAll_settles (fun f mem => ?_) (fun f mem => ?_) (fun f mem => ?_)).widen
    fun e fault => ?_).congr ?_
  · exact isSome_find?_build (names ▸ sorted.distinct) (mem_layoutOrder.1 mem)
  · -- Parameters are variables, of which there are no more than registers.
    obtain ⟨decl, mem', rfl⟩ := declared f mem
    have few := (sorted.formed decl mem').fit.few
    have params : decl.params.length ≤ decl.names.length := by
      unfold FunctionDecl.names
      rw [List.length_append, List.length_map]
      exact Nat.le_add_right _ _
    exact Nat.lt_of_le_of_lt (params.trans few) (by decide)
  · obtain ⟨decl, mem', rfl⟩ := declared f mem
    exact (sorted.formed decl mem').body
  · obtain ⟨f, mem, blames⟩ := fault
    obtain ⟨decl, mem', rfl⟩ := declared f mem
    exact .inr ⟨decl, mem', blames⟩
  · have closed : ∀ decl : FunctionDecl,
        decl.checked.Closed (.build (program.functions.map FunctionDecl.checked) 0) ↔
          decl.Closed program := by
      intro decl
      unfold CheckedFunction.Closed FunctionDecl.Closed
      rw [scope_checked sorted.distinct]
      rfl
    constructor
    · intro all decl mem
      exact (closed decl).1 (all decl.checked (mem_layoutOrder.2 (List.mem_map_of_mem mem)))
    · intro all f mem
      obtain ⟨decl, mem', rfl⟩ := declared f mem
      exact (closed decl).2 (all decl mem')

/-- Linking succeeds exactly when the program keeps the rules, and otherwise reports one of its faults. -/
theorem link_settles (program : Program) (options : Options) :
    Check.Settles program.Fault (program.link options) program.Acceptable := by
  have checked := program.check_decides
  have compiled : Check.Settles program.Fault (program.compile options)
      ((Sorted [] program.functions ∧ program.HasMain) ∧
        ∀ decl ∈ program.functions, decl.Closed program) := by
    refine checked.settles.bind fun functions succeeds keeps => ?_
    rw [checked.eq_of_ok succeeds]
    exact generation_settles keeps.1 options.fuse
  -- Once there is code for every function, laying it out cannot fail.
  have linked : Check.Settles program.Fault (program.link options)
      ((Sorted [] program.functions ∧ program.HasMain) ∧
        ∀ decl ∈ program.functions, decl.Closed program) := by
    refine compiled.surely fun object succeeds => ?_
    obtain ⟨functions, accepted, generated⟩ := Check.bind_ok succeeds
    exact exists_ofRoutines (program.check_ok accepted).nodup generated
  refine linked.congr ⟨?_, ?_⟩
  · rintro ⟨⟨sorted, main⟩, closed⟩
    exact ⟨sorted.reserved, sorted.distinct, main, sorted.formed, closed⟩
  · intro acceptable
    have sorted : Sorted [] program.functions :=
      ⟨acceptable.reserved, fun _ _ => List.not_mem_nil, acceptable.distinct, acceptable.formed⟩
    exact ⟨⟨sorted, acceptable.main⟩, acceptable.closed⟩

/-- A program links exactly when it keeps the rules of the language. Nothing is asked of its size: labels and
words on the stack are counted without bound, and the counters of 32 bits that a compiler has for them count
alike while there are fewer than `2^32` labels (`Program.Numbered` says how many there are) and fewer than
`2^31` words (`CheckedFunction.peak`). -/
theorem link_isOk_iff (program : Program) (options : Options) :
    (∃ image, program.link options = .ok image) ↔ program.Acceptable := by
  have settled := program.link_settles options
  constructor
  · rintro ⟨image, links⟩
    rwa [links] at settled
  · intro acceptable
    cases linked : program.link options with
    | ok image => exact ⟨image, rfl⟩
    | error e =>
      rw [linked] at settled
      exact absurd acceptable settled.1

/-- No program makes the compiler break one of its own rules: an error that is reported names a function
of the program as the one at fault, or says that there is no `main`. -/
theorem link_blames {program : Program} {options : Options} {e : CompileError}
    (h : program.link options = .error e) :
    (∀ reason, e.diagnostic ≠ .internal reason) ∧
      ((e = .missingMain ∧ e.diagnostic.function? = none) ∨
        ∃ decl ∈ program.functions, e.diagnostic.function? = some decl.name) := by
  have settled := program.link_settles options
  rw [h] at settled
  obtain ⟨-, rfl | ⟨decl, mem, blames⟩⟩ := settled
  · exact ⟨nofun, .inl ⟨rfl, rfl⟩⟩
  · refine ⟨fun reason eq => ?_, .inr ⟨decl, mem, blames⟩⟩
    unfold CompileError.Blames at blames
    rw [eq] at blames
    contradiction

/-- A program in which a function assigns to a variable that it does not have. -/
def assigning : Program :=
  ⟨[.procedure "main" [] [.apply "f" []], .procedure "f" [] [.set "x" (.int 1)]]⟩

/-- The function that assigns is named as the one at fault, and not the one that calls it. -/
theorem link_blames_assigning :
    assigning.link {} = .error (.undeclaredVariable "f" "x") ∧
      (∀ reason, (CompileError.undeclaredVariable "f" "x").diagnostic ≠ .internal reason) ∧
        ((CompileError.undeclaredVariable "f" "x" = .missingMain ∧
            (CompileError.undeclaredVariable "f" "x").diagnostic.function? = none) ∨
          ∃ decl ∈ assigning.functions,
            (CompileError.undeclaredVariable "f" "x").diagnostic.function? = some decl.name) := by
  have fails : assigning.link {} = .error (.undeclaredVariable "f" "x") := by cbv
  exact ⟨fails, link_blames fails⟩

end Program

end GridStack
