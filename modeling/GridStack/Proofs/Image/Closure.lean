import GridStack.Program.Build
import GridStack.Proofs.Image.Spots
import GridStack.Shell.Session

/-!
# Control stays in its segment

What the image of a linked program looks like (`Program.LaidOut`): which segments it has and how they end,
and where its jumps go. A conditional jump and a return address never leave the segment, and a jump leaves
it only for the entry of a function that is called from there (`Program.link_laid_out`).

The order and the sizes of segments are those of the routines. For the rest, each position of the image
is looked at as a `Spot`: its instruction tells the idiom, and the idiom where its label is placed.
-/

namespace GridStack

open Layout (room)

/-- The operands of an instruction. -/
def Instruction.operands (i : Instruction) : List Int32 :=
  i.a.toList ++ i.b.toList

namespace Image

/-- A jump stands at a position. -/
def JumpsAt (image : Image) (k : Nat) (target : Int32) : Prop :=
  image.code[k]? = some ⟨.const, some target, none⟩ ∧
    image.code[k + 1]? = some ⟨.pop, some Register.pc, none⟩

/-- A conditional jump stands at a position. -/
def BranchesAt (image : Image) (k : Nat) (target : Int32) : Prop :=
  image.code[k]? = some ⟨.const, some target, none⟩ ∧
    image.code[k + 1]? = some ⟨.pop, some Register.scratch, none⟩ ∧
    image.code[k + 2]? = some ⟨.jumpIf, some Register.scratch, none⟩

/-- A number is put on the stack in front of the base. -/
def SavesAt (image : Image) (k : Nat) (target : Int32) : Prop :=
  image.code[k]? = some ⟨.const, some target, none⟩ ∧
    image.code[k + 1]? = some ⟨.push, some Register.base, none⟩

/-- A target is in the segment of the position that names it. -/
def Stays (image : Image) (k : Nat) (target : Int32) : Prop :=
  ∃ s ∈ image.segments, s.Covers k ∧ ∃ n : Nat, target.toInt = n ∧ s.Covers n

end Image

/-- The line of a segment in the report on an image. -/
def Segment.line (s : Segment) : String :=
  "  " ++ s.name ++ " @ " ++ toString s.start ++ " (" ++ toString s.size ++ " instructions)\n"

/-- The report on an image has a line for each segment. -/
theorem Shell.symbolLines_eq (length : Nat) (symbols : List Symbol) :
    symbolLines length symbols = (Image.cut length symbols).map Segment.line := by
  induction symbols with
  | nil => rfl
  | cons s rest ih =>
    rw [Image.cut, List.map_cons, ← ih]
    cases rest <;> rfl

namespace Program

/-- A function of a program calls another one. -/
def Calls (program : Program) (caller callee : String) : Prop :=
  ∃ decl ∈ program.functions, decl.name = caller ∧
    ∃ excess, (callee, excess) ∈ Stmt.calleesOfAll decl.body

/-- The layout of an image and the targets of its jumps, when the program is compiled to an object and this
is laid out. -/
structure LaidOut (program : Program) (object : Object) (image : Image) : Prop where
  /-- `main` comes first, and the other functions in the order of their declaration. -/
  names : image.symbols.map Symbol.name
    = mainName :: (program.functions.map FunctionDecl.name).filter (· ≠ mainName)
  /-- `main` is entered at the first position. -/
  entry : image.symbols.head? = some ⟨mainName, 0⟩
  /-- Entries are in ascending order. -/
  ascending : image.symbols.Pairwise fun s t => s.entry < t.entry
  /-- Entries are positions of instructions. -/
  inside : ∀ s ∈ image.symbols, s.entry.toNat < image.code.length
  /-- The sizes that are reported are those of the segments. -/
  lines : Shell.symbolLines image.code.length image.symbols = image.segments.map Segment.line
  /-- No segment is empty. -/
  sizes : ∀ s ∈ image.segments, 0 < s.size
  /-- The segments are all of the code. -/
  total : (image.segments.map Segment.size).sum = image.code.length
  /-- A segment ends with a jump to the address that stops the machine, or with a return. -/
  endings : ∀ s ∈ image.segments, ∃ k, s.start ≤ k ∧ k + 2 = s.stop ∧
    image.code[k]? = some (if s.name = mainName then ⟨.const, some halt, none⟩
      else ⟨.pop, some Register.base, none⟩) ∧
    image.code[k + 1]? = some ⟨.pop, some Register.pc, none⟩
  /-- The address that stops the machine is the operand of one instruction. -/
  halts : (image.code.flatMap Instruction.operands).count halt = 1
  /-- Conditional jumps stay in their segment. -/
  branches : ∀ k target, image.BranchesAt k target → image.Stays k target
  /-- Return addresses, which are the labels in front of a push of the base, stay in their segment. -/
  returns : ∀ k target, image.SavesAt k target → (object.labelAt? k).isSome → image.Stays k target
  /-- Any other jump than the one that stops the machine stays in its segment, or goes to the entry of a
  function that is called there. -/
  jumps : ∀ k target, image.JumpsAt k target → target ≠ halt → image.Stays k target ∨
    ∃ s ∈ image.segments, s.Covers k ∧
      ∃ g ∈ image.symbols, target.toInt = g.entry.toNat ∧ program.Calls s.name g.name

namespace Linked

variable {program : Program} {options : Options} {image : Image} {l : Linked program options image}

/-- The functions are laid out with `main` in front, and otherwise in the order of their declaration. -/
theorem layout_names (l : Linked program options image) :
    (layoutOrder l.functions).map CheckedFunction.name
      = mainName :: (program.functions.map FunctionDecl.name).filter (· ≠ mainName) := by
  obtain ⟨f, mem, named, -⟩ := l.accepts.main
  have listed : mainName ∈ l.functions.map CheckedFunction.name := named ▸ List.mem_map_of_mem mem
  -- Names are different, so that just one function has the name of `main`.
  have first : (l.functions.filter (·.isMain)).map CheckedFunction.name = [mainName] := by
    have filtered : (l.functions.filter (·.isMain)).map CheckedFunction.name
        = (l.functions.map CheckedFunction.name).filter (· == mainName) := by
      rw [List.filter_map]
      rfl
    rw [filtered, List.filter_beq, List.count_eq_one_of_mem l.accepts.nodup listed]
    rfl
  have others : (l.functions.filter fun f => !f.isMain).map CheckedFunction.name
      = (program.functions.map FunctionDecl.name).filter (· ≠ mainName) := by
    rw [← l.function_names, List.filter_map]
    congr 2
    funext f
    show (!(f.name == mainName)) = decide (f.name ≠ mainName)
    by_cases eq : f.name = mainName <;> simp [eq]
  rw [layoutOrder, List.map_append, first, others]
  rfl

/-- The names of the segments. -/
theorem segment_names (l : Linked program options image) : image.segments.map Segment.name
    = mainName :: (program.functions.map FunctionDecl.name).filter (· ≠ mainName) := by
  rw [l.segments_eq, Layout.segments_names, compileAll_names l.compiled, l.layout_names]

/-- The symbols are those of the segments. -/
theorem map_symbol (l : Linked program options image) :
    image.symbols = image.segments.map Segment.symbol := by
  rw [l.segments_eq]
  exact l.symbols_eq

/-- A segment begins at the position that its symbol says. -/
theorem Part.entry_toNat {s : Segment} (p : l.Part s) : s.symbol.entry.toNat = s.start := by
  have stop := p.stop_le
  have short : image.code.length < 2147483648 := l.short
  rw [p.stop_eq] at stop
  exact UInt32.toNat_ofNat_of_lt' (Nat.lt_of_le_of_lt (by omega) (by decide : 2147483648 < 2 ^ 32))

/-- The position of the first segment. -/
theorem head_symbol (l : Linked program options image) : image.symbols.head? = some ⟨mainName, 0⟩ := by
  have names := l.segment_names
  rw [l.map_symbol]
  rw [l.segments_eq] at names ⊢
  -- The first routine has the name of the first segment, and nothing is in front of its code.
  cases routines : l.object.routines with
  | nil =>
    rw [routines] at names
    contradiction
  | cons r rest =>
    rw [routines] at names
    have named : r.name = mainName := (List.cons.inj names).1
    rw [Layout.segments, List.map_cons, Segment.symbol, named]
    rfl

/-- Segments lie side by side, and so their symbols are in ascending order. -/
theorem symbols_ascending (l : Linked program options image) :
    image.symbols.Pairwise fun s t => s.entry < t.entry := by
  rw [l.map_symbol, List.pairwise_map]
  refine l.segments_apart.imp_of_mem fun {s t} mem mem' le => ?_
  obtain ⟨p⟩ := l.exists_part mem
  obtain ⟨p'⟩ := l.exists_part mem'
  rw [UInt32.lt_iff_toNat_lt, p.entry_toNat, p'.entry_toNat]
  exact Nat.lt_of_lt_of_le p.start_lt le

/-- The sizes of the segments make up the code. -/
theorem sum_sizes (l : Linked program options image) :
    (image.segments.map Segment.size).sum = image.code.length := by
  rw [l.segments_eq, Layout.segments_sizes, l.length_eq, Object.code, Layout.room_flatMap]

/-- The last two instructions of a segment. -/
theorem exists_ending (l : Linked program options image) {s : Segment} (mem : s ∈ image.segments) :
    ∃ k, s.start ≤ k ∧ k + 2 = s.stop ∧
      image.code[k]? = some (if s.name = mainName then ⟨.const, some halt, none⟩
        else ⟨.pop, some Register.base, none⟩) ∧
      image.code[k + 1]? = some ⟨.pop, some Register.pc, none⟩ := by
  obtain ⟨p⟩ := l.exists_part mem
  obtain ⟨ps, code_eq, -⟩ := p.exists_idioms
  rw [List.flatMap_append, List.flatMap_singleton] at code_eq
  -- The last idiom of the routine has two instructions, which are behind those of all others.
  have length : room p.routine.code = (ps.flatMap Idiom.code).length + 2 := by
    rw [← Code.length_kept, code_eq, List.length_append, Site.length_ending]
  have fetch : ∀ n < 2, image.code[s.start + (ps.flatMap Idiom.code).length + n]?
      = (p.site.ending.code[n]?).map (Layout.resolve l.address) := by
    intro n low
    rw [Nat.add_assoc, p.code_getElem? (by omega), code_eq, List.getElem?_append_right (Nat.le_add_right _ _),
      Nat.add_sub_cancel_left]
  have stop := p.stop_eq
  refine ⟨s.start + (ps.flatMap Idiom.code).length, Nat.le_add_right _ _, by omega, ?_, ?_⟩
  · rw [← Nat.add_zero (s.start + _), fetch 0 (by decide), p.ending_eq]
    split <;> rfl
  · rw [fetch 1 (by decide), p.ending_eq]
    split <;> rfl

/-- Inside a function no operand is the address that stops the machine. -/
theorem halt_not_mem {own entry : Label → Prop} {address : Label → Int32}
    (apart : ∀ label, address label ≠ halt) {q : Idiom} (inner : q.Inner own entry) :
    ∀ i ∈ q.code, halt ∉ (Layout.resolve address i).operands := by
  have alone : ∀ {n : Int32}, n ≠ halt → halt ∉ [n] := fun other mem => other (List.mem_singleton.1 mem).symm
  have number : ∀ (op : Opcode) {n : Int32}, n ≠ halt →
      halt ∉ (Layout.resolve address (.imm op n)).operands := fun _ _ => alone
  have const : ∀ label, halt ∉ (Layout.resolve address (.constant (.label label))).operands :=
    fun label => alone (apart label)
  -- Numbers are not negative, and registers neither; labels are placed, and so their addresses are not.
  cases q with
  | word j =>
    refine List.forall_mem_singleton.2 ?_
    cases inner with
    | const other => exact number _ other
    | push free => exact number _ free.2.2
    | pop free => exact number _ free.2.2
    | copy free free' => exact List.not_mem_cons_of_ne_of_not_mem free.2.2.symm (alone free'.2.2)
    | plain bare effect => exact List.not_mem_nil
  | jump target =>
    exact List.forall_mem_cons.2 ⟨const target, List.forall_mem_singleton.2 (number _ (by decide))⟩
  | branch target =>
    refine List.forall_mem_cons.2 ⟨const target, List.forall_mem_cons.2 ⟨number _ (by decide), ?_⟩⟩
    exact List.forall_mem_singleton.2 (number _ (by decide))
  | back resume =>
    exact List.forall_mem_cons.2 ⟨const resume, List.forall_mem_singleton.2 (number _ (by decide))⟩
  | frame offset =>
    refine List.forall_mem_cons.2 ⟨number _ (by decide), List.forall_mem_cons.2 ⟨number _ inner, ?_⟩⟩
    exact List.forall_mem_cons.2 ⟨List.not_mem_nil, List.forall_mem_singleton.2 (number _ (by decide))⟩
  | halt => exact inner.elim
  | leave => exact inner.elim

/-- The address that stops the machine is an operand at the end of `main`, and nowhere else in a routine. -/
theorem count_halt_routine (l : Linked program options image) {routine : Routine}
    (mem : routine ∈ l.object.routines) :
    (((Code.kept routine.code).map (Layout.resolve l.address)).flatMap Instruction.operands).count halt
      = if routine.name = mainName then 1 else 0 := by
  obtain ⟨ps, own, entry, -, inner, code_eq⟩ := l.exists_routine_idioms mem
  -- All operands in front of the end of the routine are other numbers.
  have none : ((((ps.flatMap Idiom.code).map (Layout.resolve l.address)).flatMap
      Instruction.operands).count halt) = 0 := by
    refine List.count_eq_zero.2 fun operand => ?_
    obtain ⟨_, placed, operand⟩ := List.mem_flatMap.1 operand
    obtain ⟨i, drafted, rfl⟩ := List.mem_map.1 placed
    obtain ⟨q, listed, part⟩ := List.mem_flatMap.1 drafted
    exact halt_not_mem l.halt_ne_address (inner q listed) i part operand
  rw [code_eq, List.flatMap_append, List.map_append, List.flatMap_append, List.count_append, none,
    List.flatMap_singleton, Nat.zero_add]
  split <;> rfl

/-- The address that stops the machine is an operand once. -/
theorem count_halt (l : Linked program options image) :
    (image.code.flatMap Instruction.operands).count halt = 1 := by
  have routines : image.code.flatMap Instruction.operands = l.object.routines.flatMap fun r =>
      ((Code.kept r.code).map (Layout.resolve l.address)).flatMap Instruction.operands := by
    rw [l.code_eq, Object.code, Code.kept, List.filter_flatMap, List.map_flatMap, List.flatMap_assoc]
    rfl
  have names : l.object.routines.map Routine.name = image.segments.map Segment.name := by
    rw [l.segments_eq, Layout.segments_names]
  have once : (l.object.routines.map Routine.name).count mainName = 1 := by
    rw [names]
    refine List.count_eq_one_of_mem l.names_nodup ?_
    rw [l.segment_names]
    exact List.mem_cons_self
  -- Routine by routine the count is that of the name of `main` among the names.
  calc (image.code.flatMap Instruction.operands).count halt
    _ = (l.object.routines.map fun r => if r.name = mainName then 1 else 0).sum := by
      rw [routines, List.count_flatMap]
      exact congrArg List.sum (List.map_congr_left fun r mem => l.count_halt_routine mem)
    _ = (l.object.routines.map Routine.name).count mainName := by
      induction l.object.routines with
      | nil => rfl
      | cons r rest ih =>
        rw [List.map_cons, List.map_cons, List.sum_cons, List.count_cons, ih, Nat.add_comm]
        simp
    _ = 1 := once

namespace Spot

variable {k n : Nat} (p : l.Spot k) {label : Label} {target : Int32}

/-- A label of a function that is named in a segment is placed in this segment. -/
theorem stays (found : p.idiom.code[n]? = some (.constant (.label label))) (own : p.part.site.Own label) :
    image.Stays (p.first + n) (l.address label) := by
  obtain ⟨t, placed, covers⟩ := p.own_position found own
  have inside := (List.getElem?_eq_some_iff.1 found).1
  exact ⟨p.s, p.mem, p.covers inside, t, l.toInt_address placed, covers⟩

/-- The operand of a constant that is drafted with a label is the address of the label. -/
theorem target_eq (found : p.idiom.code[n]? = some (.constant (.label label)))
    (constant : image.code[p.first + n]? = some ⟨.const, some target, none⟩) : target = l.address label := by
  rw [p.code_getElem? (List.getElem?_eq_some_iff.1 found).1, found] at constant
  exact (Option.some.inj (congrArg Instruction.a (Option.some.inj constant))).symm

end Spot

/-- A conditional jump goes to a label of the function. -/
theorem branch_stays (l : Linked program options image) {k : Nat} {target : Int32}
    (h : image.BranchesAt k target) : image.Stays k target := by
  obtain ⟨constant, -, branch⟩ := h
  obtain ⟨p⟩ := l.exists_spot (List.getElem?_eq_some_iff.1 branch).1
  obtain ⟨last, label, idiom⟩ := p.of_jumpIf branch
  obtain ⟨found, own | ⟨other, -⟩⟩ := p.label_cases (.inr (.inl idiom))
  · -- The conditional jump is the third instruction of its idiom, which begins with the constant.
    have first : k = p.first + 0 := by
      have here := p.here
      omega
    rw [first] at constant ⊢
    rw [p.target_eq found constant]
    exact p.stays found own
  · rw [idiom] at other
    contradiction

/-- A return address is a label of the function. -/
theorem return_stays (l : Linked program options image) {k : Nat} {target : Int32}
    (h : image.SavesAt k target) (labelled : (l.object.labelAt? k).isSome) : image.Stays k target := by
  obtain ⟨constant, push⟩ := h
  obtain ⟨label, named⟩ := Option.isSome_iff_exists.1 labelled
  obtain ⟨p⟩ := l.exists_spot (List.getElem?_eq_some_iff.1 constant).1
  obtain ⟨start, -, idiom⟩ := p.of_label named
  -- A label is named at the beginning of its idiom, and the push is its second instruction.
  have first : k = p.first + 0 := by
    have here := p.here
    omega
  rw [first] at constant ⊢
  have two : 0 + 1 < p.idiom.code.length := by
    rcases idiom with eq | eq | eq <;> rw [eq] <;> exact Nat.one_lt_succ_succ _
  rw [first, Nat.add_assoc, p.code_getElem? two] at push
  obtain ⟨found, own | ⟨jump, -⟩⟩ := p.label_cases idiom
  · rw [p.target_eq found constant]
    exact p.stays found own
  · -- A jump goes on with a pop.
    rw [jump] at push
    cases push

/-- What the code of a function calls, the declared function calls. -/
theorem Part.calls {s : Segment} (p : l.Part s) {name : String} (h : p.Calls name) :
    program.Calls s.name name := by
  obtain ⟨decl, declared, accepts⟩ := exists_declared l.accepts.pairs p.mem
  obtain ⟨excess, mem⟩ := h
  rw [accepts.body_eq] at mem
  exact ⟨decl, declared, accepts.name_eq.symm.trans p.named, excess, mem⟩

/-- A jump goes to a label of the function, or to the entry of one that is called. -/
theorem jump_target (l : Linked program options image) {k : Nat} {target : Int32}
    (h : image.JumpsAt k target) (goes_on : target ≠ halt) : image.Stays k target ∨
      ∃ s ∈ image.segments, s.Covers k ∧
        ∃ g ∈ image.symbols, target.toInt = g.entry.toNat ∧ program.Calls s.name g.name := by
  obtain ⟨constant, pop⟩ := h
  obtain ⟨p⟩ := l.exists_spot (List.getElem?_eq_some_iff.1 pop).1
  obtain ⟨last, idiom⟩ := p.of_popPc pop
  have first : k = p.first + 0 := by
    have here := p.here
    omega
  rw [first] at constant ⊢
  have drafted := p.code_getElem? (n := 0) (by have := p.inside; omega)
  rw [constant] at drafted
  -- A pop of the program counter ends a jump to a label, the jump at the end of `main`, or a return.
  rcases idiom with ⟨label, eq⟩ | eq | eq
  · obtain ⟨found, inner⟩ := p.label_cases (.inl eq)
    rw [p.target_eq found constant]
    rcases inner with own | ⟨-, entry⟩
    · exact .inl (p.stays found own)
    · obtain ⟨g, mem, called, placed⟩ := p.part.entry_position entry
      obtain ⟨p'⟩ := l.exists_part mem
      have listed : g.symbol ∈ image.symbols := l.map_symbol ▸ List.mem_map_of_mem mem
      have covers := p.covers (List.getElem?_eq_some_iff.1 found).1
      refine .inr ⟨p.s, p.mem, covers, g.symbol, listed, ?_, p.part.calls called⟩
      rw [p'.entry_toNat]
      exact l.toInt_address placed
  · rw [eq] at drafted
    cases drafted
    exact absurd rfl goes_on
  · -- A return has a pop of the base in front of it, and no constant.
    rw [eq] at drafted
    cases drafted

end Linked

/-- The image of a program that links is laid out function by function, and control leaves the segment of
a function only to call another one, or at its end. -/
theorem link_laid_out {program : Program} {options : Options} {image : Image}
    (links : program.link options = .ok image) (short : image.Addressable) :
    ∃ object, program.compile options = .ok object ∧ Image.ofRoutines object.routines = .ok image ∧
      program.LaidOut object image := by
  obtain ⟨l⟩ := link_ok links short
  refine ⟨l.object, l.compile_eq, l.laid, ?_⟩
  have start : ∀ s ∈ image.segments, s.start < s.stop := by
    intro s mem
    obtain ⟨p⟩ := l.exists_part mem
    exact p.start_lt
  refine
    { names := ?_
      entry := l.head_symbol
      ascending := l.symbols_ascending
      inside := ?_
      lines := Shell.symbolLines_eq _ _
      sizes := fun s mem => Nat.sub_pos_of_lt (start s mem)
      total := l.sum_sizes
      endings := fun s mem => l.exists_ending mem
      halts := l.count_halt
      branches := fun k target => l.branch_stays
      returns := fun k target => l.return_stays
      jumps := fun k target => l.jump_target }
  · rw [← l.segment_names, l.map_symbol, List.map_map]
    rfl
  · intro symbol mem
    rw [l.map_symbol] at mem
    obtain ⟨s, listed, rfl⟩ := List.mem_map.1 mem
    obtain ⟨p⟩ := l.exists_part listed
    rw [p.entry_toNat]
    exact Nat.lt_of_lt_of_le (start s listed) p.stop_le

/-- A program with a loop, a call whose last argument is a literal, and a function without code of its
own. -/
def winding : Program :=
  ⟨[.procedure "rest" [] [],
    .procedure "main" [] [.declareInt "x" (.int 2),
      .whileDo (.var "x") [.apply "draw" [.var "x", .int 1], .set "x" (.binary .sub (.var "x") (.int 1))],
      .apply "rest" []],
    .procedure "draw" ["a", "b"] [.apply "output" [.var "a", .var "b", .int 1]]]⟩

/-- Its image has a segment for each of the three functions. -/
theorem link_laid_out_winding : ∃ image, winding.link {} = .ok image ∧ image.Addressable ∧
    image.segments = [⟨"main", 0, 38⟩, ⟨"rest", 38, 40⟩, ⟨"draw", 40, 49⟩] ∧
      ∃ object, winding.compile {} = .ok object ∧ Image.ofRoutines object.routines = .ok image ∧
        winding.LaidOut object image := by
  obtain ⟨image, links, short, segments⟩ : ∃ image, winding.link {} = .ok image ∧ image.Addressable ∧
      image.segments = [⟨"main", 0, 38⟩, ⟨"rest", 38, 40⟩, ⟨"draw", 40, 49⟩] :=
    ⟨⟨_, _⟩, by cbv, by decide, by decide +kernel⟩
  exact ⟨image, links, short, segments, link_laid_out links short⟩

end Program

end GridStack
