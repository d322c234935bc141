import GridStack.Program.Build
import GridStack.Proofs.Draft.Relabel
import GridStack.Proofs.Image.Spots

/-!
# The order of declaration

Declaring the functions of a program in another order only moves their code (`Program.link_perm`): the same
programs are accepted, every function has as many instructions as before, and these are the same ones but
for the operands that have been labels, which still name the same place in the same function.

Both the numbers of labels and the positions of instructions depend on the order. The code of a function
before it is laid out is that in the other order with its labels replaced (`Label.relocate`), and where a
label is placed in the code does not change by this.
-/

namespace GridStack

open Layout (room)

/-- What becomes of a label in the code of a function when functions are numbered otherwise: an entry
becomes that of the same function, and a label of the function itself keeps its distance from the first
one. -/
def Label.relocate (functions : List CheckedFunction) (table : FunctionTable) (exit exit' : Nat)
    (label : Label) : Label :=
  match functions[label.id]? with
  | some f => table.entryOf f
  | none => ⟨label.id - exit + exit'⟩

section Relocate

variable {functions : List CheckedFunction} {table : FunctionTable} {exit exit' : Nat}

/-- The labels of a function keep their distance from the first one. -/
theorem Label.relocate_moves (behind : functions.length ≤ exit) :
    Moves (relocate functions table exit exit') exit exit' := by
  intro k
  have none : functions[exit + k]? = none := List.getElem?_eq_none (by omega)
  rw [relocate, none]
  show Label.mk (exit + k - exit + exit') = ⟨exit' + k⟩
  rw [Nat.add_sub_cancel_left, Nat.add_comm]

/-- The entry of a function becomes its entry. -/
theorem Label.relocate_entry (distinct : (functions.map CheckedFunction.name).Nodup) {name : String}
    {callee callee' : Callee} (found : (FunctionTable.build functions 0).find? name = some callee)
    (found' : table.find? name = some callee') :
    relocate functions table exit exit' callee.entry = callee'.entry := by
  obtain ⟨f, mem, rfl, -⟩ := FunctionTable.of_find?_build found
  obtain ⟨i, at_index⟩ := List.getElem?_of_mem mem
  obtain rfl := Option.some.inj (found.symm.trans (FunctionTable.find?_build distinct at_index))
  rw [← Nat.zero_add i] at at_index
  rw [relocate, at_index]
  show table.entryOf f = callee'.entry
  rw [FunctionTable.entryOf, found']
  rfl

/-- The code of a function in two tables. -/
theorem FunctionCode.relocate (distinct : (functions.map CheckedFunction.name).Nodup)
    (behind : functions.length ≤ exit) {f : CheckedFunction} {fuse : Bool} {callee callee' : Callee}
    {block block' : List Instr}
    (found : (FunctionTable.build functions 0).find? f.name = some callee)
    (found' : table.find? f.name = some callee')
    (code : FunctionCode ⟨f, .build functions 0, fuse, ⟨exit⟩⟩ (exit + 1) callee.entry block)
    (code' : FunctionCode ⟨f, table, fuse, ⟨exit'⟩⟩ (exit' + 1) callee'.entry block') :
    block' = Code.relabel (Label.relocate functions table exit exit') block := by
  have moves : Moves (Label.relocate functions table exit exit') exit exit' := Label.relocate_moves behind
  have relabels : Relabels (Label.relocate functions table exit exit')
      ⟨f, .build functions 0, fuse, ⟨exit⟩⟩ table ⟨exit'⟩ :=
    ⟨moves.here, Label.relocate_entry distinct⟩
  exact code.relabel relabels (moves.add 1) (relabels.entry_eq found found') code'

end Relocate

namespace Code

variable {ρ : Label → Label} {code : List Instr}

/-- Markers stay markers. -/
theorem kept_relabel : kept (relabel ρ code) = relabel ρ (kept code) :=
  List.filter_map

/-- Replacing labels keeps the room of code. -/
theorem room_relabel : room (relabel ρ code) = room code := by
  rw [← length_kept, kept_relabel, relabel, List.length_map, length_kept]

end Code

/-- The labels that are named are replaced. -/
theorem Instr.targets_relabel (ρ : Label → Label) (i : Instr) : (i.relabel ρ).targets = i.targets.map ρ := by
  obtain ⟨op, _ | _ | _, _ | _ | _, mark⟩ := i <;> rfl

/-- An instruction that names no label is the same in every image. -/
theorem Layout.resolve_relabel {ρ : Label → Label} {address address' : Label → Int32} {i : Instr}
    (unnamed : i.targets = []) : resolve address' (i.relabel ρ) = resolve address i := by
  obtain ⟨op, _ | _ | _, _ | _ | _, mark⟩ := i <;> first | rfl | contradiction

/-- The functions of an object, with the room of their code. -/
def Object.sizes (object : Object) : List (String × Nat) :=
  object.routines.map fun r => (r.name, room r.code)

/-- Two operands name the same place in functions of one name. -/
def Image.SamePlace (image image' : Image) (target target' : Int32) : Prop :=
  ∃ s ∈ image.segments, ∃ s' ∈ image'.segments, s.name = s'.name ∧
    ∃ n < s.size, target.toInt = (s.start + n : Nat) ∧ target'.toInt = (s'.start + n : Nat)

/-- Positions in two images at which the same instruction stands, but for an operand that has been a
label. -/
inductive Image.Counterparts (object object' : Object) (image image' : Image) (k k' : Nat) : Prop
  | same {i : Instruction} (unnamed : object.labelAt? k = none) (unnamed' : object'.labelAt? k' = none)
      (here : image.code[k]? = some i) (there : image'.code[k']? = some i)
  | moved {target target' : Int32} (named : (object.labelAt? k).isSome)
      (named' : (object'.labelAt? k').isSome)
      (here : image.code[k]? = some ⟨.const, some target, none⟩)
      (there : image'.code[k']? = some ⟨.const, some target', none⟩)
      (place : image.SamePlace image' target target')

namespace Program

/-- The images of a program with its functions in two orders, when it is compiled to the objects and these
are laid out. -/
structure Relocated (program : Program) (object object' : Object) (image image' : Image) : Prop where
  /-- The segments are the functions of the program. -/
  names : (image.segments.map Segment.name).Perm (program.functions.map FunctionDecl.name)
  /-- Every function has the same size in both images. -/
  sizes : (image.segments.map fun s => (s.name, s.size)).Perm
    (image'.segments.map fun s => (s.name, s.size))
  /-- Every function has the same instructions in both images, but for the operands that have been labels,
  and these name the same places. -/
  code : ∀ s ∈ image.segments, ∀ s' ∈ image'.segments, s.name = s'.name → ∀ n < s.size,
    Image.Counterparts object object' image image' (s.start + n) (s'.start + n)

section Sizes

variable {functions functions' : List CheckedFunction} {fuse : Bool} {object object' : Object}

/-- The code of a function takes the same room when the functions are compiled in another order. -/
theorem mem_sizes (order : ∀ f ∈ functions, f ∈ functions')
    (distinct : (functions.map CheckedFunction.name).Nodup)
    (compiled : compileAll (.build functions 0) fuse (layoutOrder functions) functions.length = .ok object)
    (compiled' : compileAll (.build functions' 0) fuse (layoutOrder functions') functions'.length
      = .ok object') {entry : String × Nat} (mem : entry ∈ object.sizes) : entry ∈ object'.sizes := by
  obtain ⟨r, listed, rfl⟩ := List.mem_map.1 mem
  obtain ⟨f, mem, exit, next, behind, compiles⟩ := compile_of_mem_routines compiled listed
  have mem' : f ∈ layoutOrder functions' := mem_layoutOrder.2 (order f (mem_layoutOrder.1 mem))
  obtain ⟨before, r', after, exit', next', split, compiles'⟩ := compileAll_mem compiled' mem'
  obtain ⟨callee, found, code, -⟩ := CheckedFunction.compile_ok compiles
  obtain ⟨callee', found', code', -⟩ := CheckedFunction.compile_ok compiles'
  refine List.mem_map.2 ⟨r', split ▸ List.mem_append_right before List.mem_cons_self, ?_⟩
  rw [FunctionCode.relocate distinct behind found found' code code', Code.room_relabel,
    (routine_of_compile compiles).1, (routine_of_compile compiles').1]

/-- Every function has one size. -/
theorem nodup_sizes (distinct : (functions.map CheckedFunction.name).Nodup)
    (compiled : compileAll (.build functions 0) fuse (layoutOrder functions) functions.length = .ok object) :
    object.sizes.Nodup := by
  have names : object.sizes.map Prod.fst = (layoutOrder functions).map CheckedFunction.name := by
    rw [Object.sizes, List.map_map, ← compileAll_names compiled]
    rfl
  refine List.Nodup.of_map Prod.fst ?_
  rw [names]
  exact (layoutOrder_perm.map _).nodup_iff.2 distinct

/-- The functions take the same room when they are compiled in another order. -/
theorem sizes_perm (perm : functions.Perm functions')
    (distinct : (functions.map CheckedFunction.name).Nodup)
    (compiled : compileAll (.build functions 0) fuse (layoutOrder functions) functions.length = .ok object)
    (compiled' : compileAll (.build functions' 0) fuse (layoutOrder functions') functions'.length
      = .ok object') : object.sizes.Perm object'.sizes := by
  have distinct' : (functions'.map CheckedFunction.name).Nodup := (perm.map _).nodup_iff.1 distinct
  have nodup : object.sizes.Nodup := nodup_sizes distinct compiled
  have nodup' : object'.sizes.Nodup := nodup_sizes distinct' compiled'
  refine (List.perm_ext_iff_of_nodup nodup nodup').2 fun entry => ⟨?_, ?_⟩
  · exact mem_sizes (fun f => perm.mem_iff.1) distinct compiled compiled'
  · exact mem_sizes (fun f => perm.mem_iff.2) distinct' compiled' compiled

end Sizes

namespace Linked

variable {program program' : Program} {options : Options} {image image' : Image}

/-- The functions of a linked program in another order. -/
theorem functions_perm (l : Linked program options image) {functions : List CheckedFunction}
    (perm : program.functions.Perm program'.functions) (checked : program'.check = .ok functions) :
    l.functions.Perm functions := by
  rw [l.functions_declared, program'.check_decides.eq_of_ok checked]
  exact perm.map _

/-- The sizes of the segments are those of the functions. -/
theorem sizes_eq (l : Linked program options image) :
    (image.segments.map fun s => (s.name, s.size)) = l.object.sizes := by
  rw [l.segments_eq, Object.sizes, ← List.zip_map', ← List.zip_map', Layout.segments_names,
    Layout.segments_sizes]

/-- With the functions in another order the image is as long as before, and so it is short. -/
theorem reordered (l : Linked program options image) (perm : program.functions.Perm program'.functions)
    (links : program'.link options = .ok image') :
    ∃ l' : Linked program' options image', l.functions.Perm l'.functions ∧
      l.object.sizes.Perm l'.object.sizes := by
  unfold link at links
  obtain ⟨object', compiles, laid⟩ := Check.bind_ok links
  unfold compile at compiles
  obtain ⟨functions', checked, compiled⟩ := Check.bind_ok compiles
  have order : l.functions.Perm functions' := l.functions_perm perm checked
  have sizes : l.object.sizes.Perm object'.sizes := sizes_perm order l.accepts.nodup l.compiled compiled
  have total : ∀ object : Object, room (object.routines.flatMap Routine.code)
      = (object.sizes.map Prod.snd).sum := by
    intro object
    rw [Layout.room_flatMap, Object.sizes, List.map_map]
    rfl
  -- An image is as long as its functions are together.
  have length : image'.code.length = image.code.length := by
    rw [Layout.length_of_ofRoutines laid, Layout.length_of_ofRoutines l.laid, total, total]
    exact ((sizes.map _).sum_eq).symm
  have short : image'.Addressable := by
    have short := l.short
    unfold Image.Addressable at short ⊢
    rwa [length]
  exact ⟨⟨functions', object', checked, compiled, laid, short⟩, order, sizes⟩

namespace Part

variable {l : Linked program options image} {l' : Linked program' options image'} {s s' : Segment}
  (p : l.Part s) (p' : l'.Part s')

/-- What becomes of the labels of the function. -/
def relocate : Label → Label :=
  .relocate l.functions l'.table p.exit p'.exit

/-- The code of a function is the same in two images but for its labels. -/
theorem code_relocate (order : l.functions.Perm l'.functions) (same : s.name = s'.name) :
    p'.routine.code = Code.relabel (p.relocate p') p.routine.code := by
  have named : p'.f.name = p.f.name := p'.named.trans (same.symm.trans p.named.symm)
  have function : p'.f = p.f := l.accepts.unique (order.mem_iff.2 p'.mem) p.mem named
  have found : l.table.find? p.f.name = some p.callee := p.named ▸ p.found
  have found' : l'.table.find? p.f.name = some p'.callee := by
    rw [← named, p'.named]
    exact p'.found
  have code' := p'.code
  rw [function] at code'
  exact FunctionCode.relocate l.accepts.nodup p.behind found found' p.code code'

/-- The label of a function itself is placed at the same distance from the beginning. -/
theorem own_relocate (order : l.functions.Perm l'.functions) (same : s.name = s'.name)
    {front back : List Instr} {i : Instr} {label : Label} (split : p.routine.code = front ++ i :: back)
    (mark : i.mark = some label) :
    l'.object.position? (p.relocate p' label) = some (s'.start + room front) := by
  have split' : p'.routine.code = Code.relabel (p.relocate p') front ++
      i.relabel (p.relocate p') :: Code.relabel (p.relocate p') back := by
    rw [p.code_relocate p' order same, split, Code.relabel_append]
    rfl
  have mark' : (i.relabel (p.relocate p')).mark = some (p.relocate p' label) := by
    rw [Instr.relabel, mark]
    rfl
  rw [p'.position_eq split' mark', Code.room_relabel]

/-- A label that is named in the code of a function is placed at the same place of the same function. -/
theorem samePlace_relocate (order : l.functions.Perm l'.functions) (mem : s ∈ image.segments)
    (mem' : s' ∈ image'.segments) (same : s.name = s'.name) {i : Instr} {label : Label}
    (listed : i ∈ p.routine.code) (named : label ∈ i.targets) :
    image.SamePlace image' (l.address label) (l'.address (p.relocate p' label)) := by
  by_cases entry : ∃ name callee, l.table.find? name = some callee ∧ label = callee.entry
  · obtain ⟨name, callee, found, rfl⟩ := entry
    obtain ⟨g, g_mem, rfl⟩ := l.exists_segment found
    obtain ⟨q⟩ := l.exists_part g_mem
    obtain rfl : callee = q.callee := Option.some.inj (found.symm.trans q.found)
    -- A function of this name is declared in the other order as well.
    obtain ⟨callee', found'⟩ : ∃ callee', l'.table.find? g.name = some callee' := by
      rw [← q.named]
      exact Option.isSome_iff_exists.1 (isSome_find?_build l'.accepts.nodup (order.mem_iff.1 q.mem))
    obtain ⟨g', g_mem', same'⟩ := l'.exists_segment found'
    obtain ⟨q'⟩ := l'.exists_part g_mem'
    have moved : p.relocate p' q.callee.entry = q'.callee.entry :=
      Label.relocate_entry l.accepts.nodup q.found (same' ▸ q'.found)
    have size : 0 < g.size := q.size_eq ▸ q.code.some_room
    refine ⟨g, g_mem, g', g_mem', same'.symm, 0, size, l.toInt_address q.entry_eq, ?_⟩
    rw [moved]
    exact l'.toInt_address q'.entry_eq
  · have inner : ∀ name callee, l.table.find? name = some callee → label ≠ callee.entry :=
      fun name callee found eq => entry ⟨name, callee, found, eq⟩
    obtain ⟨front, instr, back, split, mark, low⟩ := p.code.exists_mark listed named inner
    have inside : room front < s.size := by
      rw [p.size_eq]
      omega
    exact ⟨s, mem, s', mem', same, room front, inside, l.toInt_address (p.position_eq split mark),
      l'.toInt_address (p.own_relocate p' order same split mark)⟩

end Part

/-- The instructions of a function have counterparts in the other image. -/
theorem counterparts (l : Linked program options image) (l' : Linked program' options image')
    (order : l.functions.Perm l'.functions) {s s' : Segment} (mem : s ∈ image.segments)
    (mem' : s' ∈ image'.segments) (same : s.name = s'.name) {n : Nat} (inside : n < s.size) :
    Image.Counterparts l.object l'.object image image' (s.start + n) (s'.start + n) := by
  obtain ⟨p⟩ := l.exists_part mem
  obtain ⟨p'⟩ := l'.exists_part mem'
  have code_eq : Code.kept p'.routine.code = Code.relabel (p.relocate p') (Code.kept p.routine.code) := by
    rw [p.code_relocate p' order same, Code.kept_relabel]
  rw [p.size_eq] at inside
  have inside' : n < room p'.routine.code := by
    rwa [p.code_relocate p' order same, Code.room_relabel]
  obtain ⟨i, found⟩ : ∃ i, (Code.kept p.routine.code)[n]? = some i :=
    ⟨_, List.getElem?_eq_getElem (Code.length_kept ▸ inside)⟩
  have found' : (Code.kept p'.routine.code)[n]? = some (i.relabel (p.relocate p')) := by
    rw [code_eq, Code.relabel, List.getElem?_map, found]
    rfl
  have label : l.object.labelAt? (s.start + n) = i.label? := by
    rw [p.labelAt?_eq inside, found]
    rfl
  have label' : l'.object.labelAt? (s'.start + n) = i.label?.map (p.relocate p') := by
    rw [p'.labelAt?_eq inside', found', Instr.label?, ← List.head?_map, ← Instr.targets_relabel]
    rfl
  -- Only the operand of an instruction that names a label depends on the layout.
  cases named : i.label? with
  | none =>
    rw [named] at label label'
    refine .same (i := Layout.resolve l.address i) label label' ?_ ?_
    · rw [p.code_getElem? inside, found]
      rfl
    · rw [p'.code_getElem? inside', found', Option.map_some,
        Layout.resolve_relabel (List.head?_eq_none_iff.1 named)]
  | some target =>
    rw [named] at label label'
    have stop := p.stop_le
    have stop' := p'.stop_le
    obtain ⟨spot⟩ := l.exists_spot (k := s.start + n) (by rw [p.stop_eq] at stop; omega)
    obtain ⟨spot'⟩ := l'.exists_spot (k := s'.start + n) (by rw [p'.stop_eq] at stop'; omega)
    refine .moved (by rw [label]; rfl) (by rw [label']; rfl) (spot.of_label label).2.1
      (spot'.of_label label').2.1 ?_
    exact p.samePlace_relocate p' order mem mem' same
      (Code.mem_of_mem_kept (List.mem_of_getElem? found)) (List.mem_of_head? named)

end Linked

/-- The rules of the language do not depend on the order of the functions. -/
theorem Acceptable.reorder {program program' : Program} (h : program.Acceptable)
    (perm : program.functions.Perm program'.functions) : program'.Acceptable := by
  have scope : ∀ decl : FunctionDecl, decl.scope program' = decl.scope program := by
    intro decl
    unfold FunctionDecl.scope
    simp only [perm.mem_iff]
  obtain ⟨decl, mem, main⟩ := h.main
  refine ⟨fun decl mem => h.reserved decl (perm.mem_iff.2 mem), (perm.map _).nodup_iff.1 h.distinct,
    ⟨decl, perm.mem_iff.1 mem, main⟩, fun decl mem => h.formed decl (perm.mem_iff.2 mem), ?_⟩
  intro decl mem
  have closed := h.closed decl (perm.mem_iff.2 mem)
  unfold FunctionDecl.Closed at closed ⊢
  rwa [scope]

/-- With its functions in another order a program links if it did before, and its code is only moved. -/
theorem link_perm {program program' : Program} (perm : program.functions.Perm program'.functions)
    (options : Options) :
    ((∃ image, program.link options = .ok image) ↔ ∃ image, program'.link options = .ok image) ∧
      ∀ image image', program.link options = .ok image → program'.link options = .ok image' →
        image.Addressable → ∃ object object',
          program.compile options = .ok object ∧ Image.ofRoutines object.routines = .ok image ∧
          program'.compile options = .ok object' ∧ Image.ofRoutines object'.routines = .ok image' ∧
          program.Relocated object object' image image' := by
  constructor
  · rw [(program.link_settles options).exists_ok_iff, (program'.link_settles options).exists_ok_iff]
    exact ⟨fun h => h.reorder perm, fun h => h.reorder perm.symm⟩
  · intro image image' links links' short
    obtain ⟨l⟩ := link_ok links short
    obtain ⟨l', order, sizes⟩ := l.reordered perm links'
    refine ⟨l.object, l'.object, l.compile_eq, l.laid, l'.compile_eq, l'.laid, ?_, ?_, ?_⟩
    · exact l.function_names ▸ l.names_perm
    · rw [l.sizes_eq, l'.sizes_eq]
      exact sizes
    · intro s mem s' mem' same n inside
      exact l.counterparts l' order mem mem' same inside

/-- A program with a loop, a call for a value and a call for an effect. -/
def counting : Program :=
  ⟨[.procedure "main" [] [.declareInt "x" (.int 3),
      .whileDo (.var "x") [.set "x" (.apply "less" [.var "x"])], .apply "show" [.var "x"]],
    .function "less" ["n"] [.give (.binary .sub (.var "n") (.int 1))],
    .procedure "show" ["n"] [.ifThen (.var "n") [.ret none], .apply "output" [.int 0, .int 0, .var "n"]]]⟩

/-- The same functions in the opposite order. -/
def counting' : Program :=
  ⟨counting.functions.reverse⟩

/-- `main` stays in front, and the other two functions change places. -/
theorem link_perm_counting : ∃ image image', counting.link {} = .ok image ∧ counting'.link {} = .ok image' ∧
    image.Addressable ∧ image.segments = [⟨"main", 0, 33⟩, ⟨"less", 33, 44⟩, ⟨"show", 44, 57⟩] ∧
      image'.segments = [⟨"main", 0, 33⟩, ⟨"show", 33, 46⟩, ⟨"less", 46, 57⟩] ∧
        ∃ object object',
          counting.compile {} = .ok object ∧ Image.ofRoutines object.routines = .ok image ∧
          counting'.compile {} = .ok object' ∧ Image.ofRoutines object'.routines = .ok image' ∧
          counting.Relocated object object' image image' := by
  have perm : counting.functions.Perm counting'.functions := (List.reverse_perm _).symm
  obtain ⟨image, links, short, segments⟩ : ∃ image, counting.link {} = .ok image ∧ image.Addressable ∧
      image.segments = [⟨"main", 0, 33⟩, ⟨"less", 33, 44⟩, ⟨"show", 44, 57⟩] :=
    ⟨⟨_, _⟩, by cbv, by decide, by decide +kernel⟩
  obtain ⟨image', links', segments'⟩ : ∃ image, counting'.link {} = .ok image ∧
      image.segments = [⟨"main", 0, 33⟩, ⟨"show", 33, 46⟩, ⟨"less", 46, 57⟩] :=
    ⟨⟨_, _⟩, by cbv, by decide +kernel⟩
  exact ⟨image, image', links, links', short, segments, segments',
    (link_perm perm {}).2 image image' links links' short⟩

end Program

end GridStack
