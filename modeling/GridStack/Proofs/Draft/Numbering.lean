import GridStack.Proofs.Acceptance.Exact
import GridStack.Proofs.Draft.Alphabet
import GridStack.Proofs.Image.Closure

/-!
# Labels and places

Labels are handed out one by one, some before and some after the parts of a tree have been generated, by a
counter that goes from function to function. In the end they stand for places one to one
(`Program.Numbered`): each label below the final count is placed by one marker, and only such labels are
named, in the function that places them or in a call of the function that they are the entry of.

That each is placed once has been counted function by function (`Program.compileAll_placed`). Where the
label of an operand is placed follows from what the operand can be: a label that the function has taken, or
the entry of a function that it calls (`Site.Admits`).
-/

namespace GridStack

namespace Code

variable {code : List Instr} {label : Label}

/-- A label that is placed once is placed by one instruction. -/
theorem existsUnique_mark (once : (marks code).Nodup) (placed : label ∈ marks code) :
    ∃! k : Nat, ∃ i, code[k]? = some i ∧ i.mark = some label := by
  obtain ⟨i, mem, mark⟩ := List.mem_filterMap.1 placed
  obtain ⟨k, found⟩ := List.getElem?_of_mem mem
  -- Two instructions that place the label would be two marks of it in the list.
  have apart := List.pairwise_iff_getElem.1 (List.pairwise_filterMap.1 once)
  refine ⟨k, ⟨i, found, mark⟩, ?_⟩
  rintro j ⟨i', found', mark'⟩
  obtain ⟨inside, rfl⟩ := List.getElem?_eq_some_iff.1 found
  obtain ⟨inside', rfl⟩ := List.getElem?_eq_some_iff.1 found'
  rcases Nat.lt_trichotomy j k with before | same | behind
  · exact absurd rfl (apart j k inside' inside before label mark' label mark)
  · exact same
  · exact absurd rfl (apart k j inside inside' behind label mark label mark')

end Code

namespace Site

variable {site : Site} {may : String → Prop} {limit : Nat} {i : Instr} {label : Label}

/-- An instruction that places a label is a marker. -/
theorem Admits.eq_marker (h : site.Admits may limit i) (mark : i.mark = some label) : i = .marker label := by
  cases h with
  | marker label' =>
    cases mark
    rfl
  | number | offset | own | entry | push | pop | copy | jumpIf | plain | halt => cases mark

/-- A label that an instruction names is one of the function, or the entry of a function that it calls. -/
theorem Admits.label_cases (h : site.Admits may limit i) (named : label ∈ i.targets) :
    site.Own label ∨ site.Entry may label := by
  cases h with
  | own own =>
    obtain rfl := List.mem_singleton.1 named
    exact .inl own
  | entry entry =>
    obtain rfl := List.mem_singleton.1 named
    exact .inr entry
  | marker | number | offset | push | pop | copy | jumpIf | plain | halt => cases named

end Site

namespace Program

/-- The number of labels that the code of a program takes: for each function one at its entry and one behind
its body, and those that its body takes. -/
def labels (program : Program) : Nat :=
  (program.functions.map fun decl => 2 + Stmt.labelsOfAll decl.body).sum

/-- Labels stand for places one to one in the code of a program. They are numbered by an allocator that does
not run out; one of 32 bits numbers them alike, as long as the program takes fewer than `2^32` of them. -/
structure Numbered (program : Program) (object : Object) : Prop where
  /-- How many labels are taken can be counted in the tree. -/
  counted : object.labels = program.labels
  /-- Every label that has been taken is placed by one instruction. -/
  placed : ∀ n < object.labels, ∃! k : Nat, ∃ i, object.code[k]? = some i ∧ i.mark = some ⟨n⟩
  /-- What places a label is a marker, and no other labels are placed. -/
  marked : ∀ i ∈ object.code, ∀ label, i.mark = some label → i = .marker label ∧ label.id < object.labels
  /-- Only labels that have been taken are named. -/
  named : ∀ i ∈ object.code, ∀ label ∈ i.targets, label.id < object.labels
  /-- Every function begins with the marker of its entry. -/
  starts : ∀ r ∈ object.routines, ∃ back, r.code = .marker r.entry :: back
  /-- A label is named in the function that places it, unless it is the entry of a function that is called
  there. -/
  stays : ∀ r ∈ object.routines, ∀ i ∈ r.code, ∀ label ∈ i.targets, .marker label ∈ r.code ∨
    ∃ callee ∈ object.routines, label = callee.entry ∧ program.Calls r.name callee.name

variable {program : Program} {options : Options} {object : Object}

/-- A program that is compiled has passed the check, and the code of its functions has been generated. -/
theorem compile_ok (h : program.compile options = .ok object) :
    ∃ functions, program.check = .ok functions ∧
      compileAll (.build functions 0) options.fuse (layoutOrder functions) functions.length = .ok object := by
  unfold compile at h
  exact Check.bind_ok h

/-- The routine of a function that can be called. -/
theorem exists_routine {functions : List CheckedFunction} {fuse : Bool}
    (h : compileAll (.build functions 0) fuse (layoutOrder functions) functions.length = .ok object)
    {name : String} {callee : Callee}
    (found : (FunctionTable.build functions 0).find? name = some callee) :
    ∃ r ∈ object.routines, r.name = name ∧ callee.entry = r.entry := by
  obtain ⟨f, mem, rfl, -⟩ := FunctionTable.of_find?_build found
  obtain ⟨before, routine, after, exit, next, split, compiles⟩ :=
    compileAll_mem h (mem_layoutOrder.2 mem)
  obtain ⟨named, entry⟩ := routine_of_compile compiles
  refine ⟨routine, split ▸ List.mem_append_right before List.mem_cons_self, named, ?_⟩
  rw [entry, FunctionTable.entryOf, found]
  rfl

/-- The instructions of a routine are those of a function that the program declares, and its own labels that
are named in it are placed in it. -/
theorem exists_site {functions : List CheckedFunction} (accepts : program.Accepts functions) {fuse : Bool}
    (h : compileAll (.build functions 0) fuse (layoutOrder functions) functions.length = .ok object)
    {r : Routine} (mem : r ∈ object.routines) :
    ∃ (site : Site) (limit : Nat), site.table = .build functions 0 ∧ site.Written (program.Calls r.name) limit r.code ∧
      (∃ back, r.code = .marker r.entry :: back) ∧
        ∀ i ∈ r.code, ∀ label ∈ i.targets, site.Own label → label ∈ Code.marks r.code := by
  obtain ⟨f, listed, callee, exit, named, entry, behind, -, code⟩ := code_of_mem_routines h mem
  obtain ⟨decl, declared, kept⟩ := exists_declared accepts.pairs (mem_layoutOrder.1 listed)
  have calls : ∀ name, (∃ excess, (name, excess) ∈ Stmt.calleesOfAll f.body) → program.Calls r.name name := by
    rintro name ⟨excess, called⟩
    rw [kept.body_eq] at called
    exact ⟨decl, declared, kept.name_eq.symm.trans named.symm, excess, called⟩
  refine ⟨⟨f, .build functions 0, fuse, ⟨exit⟩⟩, Layout.room r.code, rfl, fun i part => ?_, ?_, ?_⟩
  · exact (code.written kept.params_le (Nat.le_succ _) i part).mono calls
  · rw [entry]
    exact code.starts
  · -- A label of the function is no entry, as these come in front of it.
    intro i part label target own
    obtain ⟨tidy, marks⟩ := functionCode_labels code
    have own : exit ≤ label.id := own
    rw [marks.mem_iff, List.mem_cons, List.mem_cons, Label.mem_range]
    rcases (tidy i part).2 label target with range | rfl | ⟨name, other, found, rfl⟩
    · exact .inr (.inr range)
    · exact .inr (.inl rfl)
    · have low := FunctionTable.entry_lt found
      omega

/-- The labels of functions that were accepted, their entries among them, can be counted in the tree. -/
theorem sum_labels {decls : List FunctionDecl} {functions : List CheckedFunction}
    (pairs : List.Forall₂ FunctionDecl.Accepts decls functions) :
    functions.length + (functions.map CheckedFunction.labels).sum
      = (decls.map fun decl => 2 + Stmt.labelsOfAll decl.body).sum := by
  induction pairs with
  | nil => rfl
  | cons kept _ ih =>
    rw [List.length_cons, List.map_cons, List.map_cons, List.sum_cons, List.sum_cons, ← ih,
      CheckedFunction.labels, kept.body_eq]
    omega

/-- Labels are allocated and placed one to one. -/
theorem compile_numbered (h : program.compile options = .ok object) : program.Numbered object := by
  obtain ⟨functions, checked, compiled⟩ := compile_ok h
  have accepts := check_ok checked
  obtain ⟨placed, named⟩ := compileAll_placed accepts.nodup compiled
  have below : ∀ label : Label, label ∈ Code.marks object.code ↔ label.id < object.labels := by
    intro label
    rw [Object.code, placed.mem_iff, Label.mem_range, Nat.zero_add]
    exact and_iff_right (Nat.zero_le _)
  have once : (Code.marks object.code).Nodup :=
    placed.nodup_iff.2 (List.Nodup.map (fun _ _ => Label.mk.inj) List.nodup_range')
  refine
    { counted := ?_
      placed := fun n low => Code.existsUnique_mark once ((below ⟨n⟩).2 low)
      marked := fun i mem label mark => ?_
      named := named
      starts := fun r mem => ?_
      stays := fun r mem i part label target => ?_ }
  · -- The entries are taken first, and functions are laid out in an order of their own.
    have order : (layoutOrder functions).Perm functions := List.filter_append_perm _ _
    rw [(compileAll_labels compiled).1, (order.map CheckedFunction.labels).sum_eq]
    exact sum_labels accepts.pairs
  · obtain ⟨r, listed, part⟩ := List.mem_flatMap.1 mem
    obtain ⟨site, limit, -, written, -⟩ := exists_site accepts compiled listed
    exact ⟨(written i part).eq_marker mark, (below label).1 (List.mem_filterMap.2 ⟨i, mem, mark⟩)⟩
  · obtain ⟨site, limit, -, -, starts, -⟩ := exists_site accepts compiled mem
    exact starts
  · obtain ⟨site, limit, table, written, -, own_placed⟩ := exists_site accepts compiled mem
    rcases (written i part).label_cases target with own | ⟨name, callee, called, found, rfl⟩
    · obtain ⟨j, part', mark⟩ := List.mem_filterMap.1 (own_placed i part label target own)
      rw [(written j part').eq_marker mark] at part'
      exact .inl part'
    · rw [table] at found
      obtain ⟨r', mem', rfl, entry⟩ := exists_routine compiled found
      exact .inr ⟨r', mem', entry, called⟩

/-- The labels of a program with three functions, a loop, and calls. -/
theorem compile_numbered_winding : ∃ object, winding.compile {} = .ok object ∧ object.labels = 10 ∧
    winding.Numbered object := by
  obtain ⟨object, compiles, labels⟩ : ∃ object, winding.compile {} = .ok object ∧ object.labels = 10 :=
    ⟨⟨_, _⟩, by cbv, by decide⟩
  exact ⟨object, compiles, labels, compile_numbered compiles⟩

end Program

end GridStack
