import GridStack.Proofs.Image.Symbols

/-!
# Segments

The symbols of an image cut its code into segments, one for each function (`Image.segments`). These are
the routines, laid out side by side (`Linked.segments_eq`), so what stands in a segment is the code of one
function, and this can be looked at without knowing where it stands: `Linked.Part` is a segment with the
function whose code it is.

A position in an image is that of an instruction that was drafted, and so it is known which operands have
been labels (`Object.labelAt?`) and where a label has been placed (`Object.position?`).
-/

namespace GridStack

open Layout (room)

/-- The part of an image that is the code of a function. -/
structure Segment where
  name : String
  /-- The position of the first instruction. -/
  start : Nat
  /-- The position behind the last instruction. -/
  stop : Nat
deriving DecidableEq

namespace Segment

/-- The number of instructions. -/
def size (s : Segment) : Nat :=
  s.stop - s.start

/-- The positions of the instructions. -/
def Covers (s : Segment) (position : Nat) : Prop :=
  s.start ≤ position ∧ position < s.stop

/-- Whether a segment covers a position can be looked up. -/
instance (s : Segment) (position : Nat) : Decidable (s.Covers position) :=
  inferInstanceAs (Decidable (_ ∧ _))

/-- The symbol at the beginning. -/
def symbol (s : Segment) : Symbol :=
  ⟨s.name, UInt32.ofNat s.start⟩

end Segment

namespace Image

/-- Cuts code of a given length at the entries of functions. -/
def cut (length : Nat) : List Symbol → List Segment
  | [] => []
  | s :: rest =>
    ⟨s.name, s.entry.toNat, (rest.head?.map fun next => next.entry.toNat).getD length⟩ :: cut length rest

/-- The code of a function reaches from its entry to the next one, or to the end of the code. -/
def segments (image : Image) : List Segment :=
  cut image.code.length image.symbols

end Image

namespace Code

/-- The instructions of code that an image keeps. -/
def kept (code : List Instr) : List Instr :=
  code.filter fun instr => !instr.isMarker

variable {front back code : List Instr} {i : Instr}

/-- Where there is no code nothing is kept. -/
@[simp] theorem kept_nil : kept [] = [] := rfl

/-- What is kept of two pieces of code is kept of each. -/
@[simp] theorem kept_append : kept (front ++ back) = kept front ++ kept back :=
  List.filter_append _ _

/-- A marker is not kept. -/
@[simp] theorem kept_marker {label : Label} : kept (.marker label :: code) = kept code :=
  rfl

/-- What is kept is counted. -/
@[simp] theorem length_kept : (kept code).length = room code :=
  List.countP_eq_length_filter.symm

/-- A part of what is kept is a part of the code. -/
theorem mem_of_mem_kept (h : i ∈ kept code) : i ∈ code :=
  List.mem_of_mem_filter h

end Code

/-- The label that an instruction names. -/
def Instr.label? (i : Instr) : Option Label :=
  i.targets.head?

namespace Object

/-- The code of all functions. -/
def code (object : Object) : List Instr :=
  object.routines.flatMap Routine.code

/-- The label that the instruction at a position has as its operand. -/
def labelAt? (object : Object) (position : Nat) : Option Label :=
  ((Code.kept object.code)[position]?).bind Instr.label?

/-- The position of a label. -/
def position? (object : Object) (label : Label) : Option Nat :=
  (Layout.positions 0 object.code).lookup label

end Object

namespace Layout

/-- The segments of routines that are laid out from a position on. -/
def segments (position : Nat) : List Routine → List Segment
  | [] => []
  | r :: rest => ⟨r.name, position, position + room r.code⟩ :: segments (position + room r.code) rest

variable {position : Nat} {routines : List Routine}

/-- A segment begins behind what is laid out in front of its routine. -/
theorem mem_segments {s : Segment} :
    s ∈ segments position routines ↔ ∃ before r after, routines = before ++ r :: after ∧
      s = ⟨r.name, position + room (before.flatMap Routine.code),
        position + room (before.flatMap Routine.code) + room r.code⟩ := by
  induction routines generalizing position with
  | nil => simp [segments]
  | cons r rest ih =>
    rw [segments, List.mem_cons, ih]
    constructor
    · rintro (rfl | ⟨before, other, after, rfl, rfl⟩)
      · exact ⟨[], r, rest, rfl, rfl⟩
      · refine ⟨r :: before, other, after, rfl, ?_⟩
        rw [List.flatMap_cons, room_append, Nat.add_assoc position]
    · rintro ⟨_ | ⟨first, before⟩, other, after, split, rfl⟩
      · cases split
        exact .inl rfl
      · cases split
        refine .inr ⟨before, other, after, rfl, ?_⟩
        rw [List.flatMap_cons, room_append, ← Nat.add_assoc position]

/-- Segments have the names of the routines. -/
theorem segments_names : (segments position routines).map Segment.name = routines.map Routine.name := by
  induction routines generalizing position with
  | nil => rfl
  | cons r rest ih => rw [segments, List.map_cons, List.map_cons, ih]

/-- Segments have the room of the routines. -/
theorem segments_sizes :
    (segments position routines).map Segment.size = routines.map fun r => room r.code := by
  induction routines generalizing position with
  | nil => rfl
  | cons r rest ih =>
    rw [segments, List.map_cons, List.map_cons, ih, Segment.size]
    exact congrArg₂ _ (Nat.add_sub_cancel_left _ _) rfl

/-- Segments lie side by side. -/
theorem segments_pairwise :
    (segments position routines).Pairwise fun s t => s.stop ≤ t.start := by
  induction routines generalizing position with
  | nil => exact .nil
  | cons r rest ih =>
    refine .cons (fun t mem => ?_) ih
    obtain ⟨before, other, after, -, rfl⟩ := mem_segments.1 mem
    exact Nat.le_add_right _ _

/-- Every position of the code is in a segment. -/
theorem exists_segment {k : Nat} (low : position ≤ k)
    (high : k < position + room (routines.flatMap Routine.code)) :
    ∃ s ∈ segments position routines, s.Covers k := by
  induction routines generalizing position with
  | nil => exact absurd high (Nat.not_lt_of_le low)
  | cons r rest ih =>
    rw [List.flatMap_cons, room_append, ← Nat.add_assoc] at high
    by_cases inside : k < position + room r.code
    · exact ⟨_, List.mem_cons_self, low, inside⟩
    · obtain ⟨s, mem, covers⟩ := ih (Nat.le_of_not_lt inside) high
      exact ⟨s, List.mem_cons_of_mem _ mem, covers⟩

/-- Cutting the code at the symbols of segments gives the segments. -/
theorem cut_segments (small : position + room (routines.flatMap Routine.code) < 2 ^ 32) :
    Image.cut (position + room (routines.flatMap Routine.code))
      ((segments position routines).map Segment.symbol) = segments position routines := by
  induction routines generalizing position with
  | nil => rfl
  | cons r rest ih =>
    rw [List.flatMap_cons, room_append, ← Nat.add_assoc] at small ⊢
    have first : (UInt32.ofNat position).toNat = position :=
      UInt32.toNat_ofNat_of_lt' (Nat.lt_of_le_of_lt (by omega) small)
    have next : (UInt32.ofNat (position + room r.code)).toNat = position + room r.code :=
      UInt32.toNat_ofNat_of_lt' (Nat.lt_of_le_of_lt (by omega) small)
    rw [segments, List.map_cons, Image.cut, ih small, Segment.symbol, first]
    -- The next entry is where this routine ends, and so is the end of the code if there is none.
    congr 2
    cases rest with
    | nil => rfl
    | cons other rest => exact next

/-- The symbols of routines that begin with their own entries are those of their segments. -/
theorem symbols_eq {routines : List Routine} {names : List Symbol}
    (nodup : ((positions 0 (routines.flatMap Routine.code)).map Prod.fst).Nodup)
    (own : ∀ r ∈ routines, ∃ back, r.code = .marker r.entry :: back)
    (h : symbols (positions 0 (routines.flatMap Routine.code)) routines = .ok names) :
    names = (segments 0 routines).map Segment.symbol := by
  -- The table of positions stays that of all routines while the list of those to come gets shorter.
  suffices behind : ∀ before after, routines = before ++ after → ∀ names,
      symbols (positions 0 (routines.flatMap Routine.code)) after = .ok names →
        names = (segments (room (before.flatMap Routine.code)) after).map Segment.symbol from
    behind [] routines rfl names h
  intro before after split names
  induction after generalizing before names with
  | nil =>
    intro h
    cases h
    rfl
  | cons r rest ih =>
    intro h
    obtain ⟨back, starts⟩ := own r (split ▸ List.mem_append_right before List.mem_cons_self)
    -- The entry is the first instruction of its routine, so its position is what is in front of that.
    have found : (positions 0 (routines.flatMap Routine.code)).lookup r.entry
        = some (room (before.flatMap Routine.code)) := by
      rw [split, List.flatMap_append, List.flatMap_cons, starts, List.cons_append] at nodup ⊢
      exact lookup_positions nodup rfl
    rw [symbols, found] at h
    obtain ⟨others, following, h⟩ := Check.bind_ok h
    cases h
    have behind := ih (before ++ [r]) (by rw [split, List.append_assoc]; rfl) others following
    rw [List.flatMap_append, List.flatMap_singleton, room_append] at behind
    rw [segments, List.map_cons, behind]
    rfl

/-- The length of an image is the room of the code that is laid out. -/
theorem length_of_ofRoutines {routines : List Routine} {image : Image}
    (laid : Image.ofRoutines routines = .ok image) :
    image.code.length = room (routines.flatMap Routine.code) := by
  rw [instructions_ok (ofRoutines_ok laid).2, List.length_map]
  exact Code.length_kept

/-- The room of routines is that of all of them. -/
theorem room_flatMap {routines : List Routine} :
    room (routines.flatMap Routine.code) = (routines.map fun r => room r.code).sum :=
  List.countP_flatMap

end Layout

namespace Program

/-- The functions that are laid out are the declared ones. -/
theorem layoutOrder_perm {functions : List CheckedFunction} : (layoutOrder functions).Perm functions :=
  List.filter_append_perm _ _

/-- A routine is the code of one of the functions, with its name and its entry. -/
theorem code_of_mem_routines {table : FunctionTable} {fuse : Bool} {functions : List CheckedFunction}
    {next : Nat} {object : Object} (h : compileAll table fuse functions next = .ok object)
    {routine : Routine} (mem : routine ∈ object.routines) :
    ∃ f ∈ functions, ∃ callee exit, routine.name = f.name ∧ routine.entry = callee.entry ∧ next ≤ exit ∧
      table.find? f.name = some callee ∧
        FunctionCode ⟨f, table, fuse, ⟨exit⟩⟩ (exit + 1) callee.entry routine.code := by
  obtain ⟨f, mem, exit, next', behind, compiles⟩ := compile_of_mem_routines h mem
  obtain ⟨callee, found, code, -⟩ := CheckedFunction.compile_ok compiles
  obtain ⟨named, entry⟩ := routine_of_compile compiles
  refine ⟨f, mem, callee, exit, named, ?_, behind, found, code⟩
  rw [entry, FunctionTable.entryOf, found]
  rfl

/-- Routines have the names of the functions. -/
theorem compileAll_names {table : FunctionTable} {fuse : Bool} {functions : List CheckedFunction}
    {next : Nat} {object : Object} (h : compileAll table fuse functions next = .ok object) :
    object.routines.map Routine.name = functions.map CheckedFunction.name := by
  induction functions generalizing next object with
  | nil =>
    cases h
    rfl
  | cons f fs ih =>
    obtain ⟨first, next', rest, compiles, others, rfl⟩ := compileAll_cons_ok h
    rw [List.map_cons, List.map_cons, ih others, (routine_of_compile compiles).1]

namespace Linked

variable {program : Program} {options : Options} {image : Image} (l : Linked program options image)

/-- The code that is linked is that to which the program is compiled. -/
theorem compile_eq : program.compile options = .ok l.object := by
  unfold compile
  rw [l.checked]
  exact l.compiled

/-- The functions are the declared ones. -/
theorem functions_declared : l.functions = program.functions.map FunctionDecl.checked :=
  program.check_decides.eq_of_ok l.checked

/-- The functions have the names of the declared ones. -/
theorem function_names : l.functions.map CheckedFunction.name = program.functions.map FunctionDecl.name := by
  rw [l.functions_declared, List.map_map]
  rfl

/-- Every label is placed once. -/
theorem placed_once : ((Layout.positions 0 l.object.code).map Prod.fst).Nodup :=
  (Layout.ofRoutines_ok l.laid).1

/-- What stands for a label in the image. -/
def address (label : Label) : Int32 :=
  Layout.addressIn (Layout.positions 0 l.object.code) label

/-- The image has the kept instructions, with their labels replaced. -/
theorem code_eq : image.code = (Code.kept l.object.code).map (Layout.resolve l.address) :=
  Layout.instructions_ok (Layout.ofRoutines_ok l.laid).2

/-- The length of the image is the room of the code. -/
theorem length_eq : image.code.length = room l.object.code :=
  Layout.length_of_ofRoutines l.laid

/-- A label has the position of the first instruction behind it. -/
theorem position_eq {front back : List Instr} {instr : Instr} {label : Label}
    (split : l.object.code = front ++ instr :: back) (mark : instr.mark = some label) :
    l.object.position? label = some (room front) := by
  have nodup := l.placed_once
  rw [Object.position?]
  rw [split] at nodup ⊢
  exact Layout.lookup_positions nodup mark

/-- No position is behind the end of the code. -/
theorem position_le {label : Label} {position : Nat} (h : l.object.position? label = some position) :
    position ≤ image.code.length := by
  obtain ⟨before, after, split, -⟩ := List.lookup_eq_some_iff.1 h
  have placed : label ∈ Code.marks l.object.code := by
    rw [← Layout.positions_fst 0, split]
    simp
  obtain ⟨instr, mem, mark⟩ := List.mem_filterMap.1 placed
  obtain ⟨front, back, eq⟩ := List.append_of_mem mem
  obtain rfl : position = room front := Option.some.inj (h.symm.trans (l.position_eq eq mark))
  rw [l.length_eq, eq, Layout.room_append]
  exact Nat.le_add_right _ _

/-- The address of a label is its position. -/
theorem address_eq {label : Label} {position : Nat} (h : l.object.position? label = some position) :
    l.address label = Int32.ofNat position := by
  rw [address, Layout.addressIn]
  exact congrArg (fun found => Int32.ofNat (found.getD 0)) h

/-- As a number, the address of a label is its position. -/
theorem toInt_address {label : Label} {position : Nat} (h : l.object.position? label = some position) :
    (l.address label).toInt = position := by
  have le := l.position_le h
  have short : image.code.length < 2147483648 := l.short
  rw [l.address_eq h]
  exact Int32.toInt_ofNat_of_lt (by omega)

/-- The address of a label is not negative. -/
theorem address_nonneg (label : Label) : 0 ≤ l.address label := by
  rw [Int32.le_iff_toInt_le]
  cases found : l.object.position? label with
  | none =>
    -- A label that is not placed would stand for zero.
    have zero : l.address label = Int32.ofNat 0 :=
      congrArg (fun found : Option Nat => Int32.ofNat (found.getD 0)) found
    rw [zero]
    decide
  | some position =>
    rw [l.toInt_address found]
    exact Int.natCast_nonneg position

/-- No label stands for the address that stops the machine. -/
theorem halt_ne_address (label : Label) : l.address label ≠ halt := by
  intro eq
  have positive := l.address_nonneg label
  rw [eq] at positive
  exact absurd positive (by decide)

/-- A routine is the code of a function, whose labels come behind those of all entries. -/
theorem exists_code {routine : Routine} (mem : routine ∈ l.object.routines) :
    ∃ f ∈ l.functions, ∃ callee exit, routine.name = f.name ∧ routine.entry = callee.entry ∧
      l.functions.length ≤ exit ∧ l.table.find? f.name = some callee ∧
        FunctionCode ⟨f, l.table, options.fuse, ⟨exit⟩⟩ (exit + 1) callee.entry routine.code := by
  obtain ⟨f, listed, code⟩ := code_of_mem_routines l.compiled mem
  exact ⟨f, mem_layoutOrder.1 listed, code⟩

/-- Every routine begins with the marker of its own entry, so the symbols are those of the segments. -/
theorem symbols_eq : image.symbols = (Layout.segments 0 l.object.routines).map Segment.symbol := by
  refine Layout.symbols_eq l.placed_once (fun r mem => ?_) (Layout.ofRoutines_symbols l.laid)
  obtain ⟨f, -, callee, exit, -, entry, -, -, code⟩ := l.exists_code mem
  rw [entry]
  exact code.starts

/-- The segments of the image are its routines, laid out from the first position on. -/
theorem segments_eq : image.segments = Layout.segments 0 l.object.routines := by
  have length : image.code.length = 0 + room (l.object.routines.flatMap Routine.code) := by
    rw [Nat.zero_add]
    exact l.length_eq
  have small : 0 + room (l.object.routines.flatMap Routine.code) < 2 ^ 32 := by
    rw [← length]
    exact Nat.lt_trans l.short (by decide)
  rw [Image.segments, length, l.symbols_eq]
  exact Layout.cut_segments small

/-- A segment, with the function whose code it is. -/
structure Part (s : Segment) where
  before : List Routine
  routine : Routine
  after : List Routine
  split : l.object.routines = before ++ routine :: after
  start_eq : s.start = room (before.flatMap Routine.code)
  stop_eq : s.stop = s.start + room routine.code
  f : CheckedFunction
  mem : f ∈ l.functions
  named : f.name = s.name
  callee : Callee
  found : l.table.find? s.name = some callee
  exit : Nat
  /-- The labels of the function come behind those of all entries. -/
  behind : l.functions.length ≤ exit
  code : FunctionCode ⟨f, l.table, options.fuse, ⟨exit⟩⟩ (exit + 1) callee.entry routine.code

/-- A routine that is laid out is the code of a function. -/
theorem exists_part_of_split {before after : List Routine} {routine : Routine}
    (split : l.object.routines = before ++ routine :: after) :
    ∃ p : l.Part ⟨routine.name, room (before.flatMap Routine.code),
      room (before.flatMap Routine.code) + room routine.code⟩, p.routine = routine := by
  have mem : routine ∈ l.object.routines := split ▸ List.mem_append_right before List.mem_cons_self
  obtain ⟨f, mem, callee, exit, named, -, behind, found, code⟩ := l.exists_code mem
  rw [← named] at found
  exact ⟨⟨before, routine, after, split, rfl, rfl, f, mem, named.symm, callee, found, exit, behind, code⟩,
    rfl⟩

/-- Every segment is the code of a function. -/
theorem exists_part {s : Segment} (mem : s ∈ image.segments) : Nonempty (l.Part s) := by
  rw [l.segments_eq] at mem
  obtain ⟨before, routine, after, split, rfl⟩ := Layout.mem_segments.1 mem
  obtain ⟨p, -⟩ := l.exists_part_of_split split
  rw [Nat.zero_add]
  exact ⟨p⟩

/-- Every instruction is in a segment. -/
theorem exists_covers (l : Linked program options image) {k : Nat} (inside : k < image.code.length) :
    ∃ s ∈ image.segments, s.Covers k := by
  rw [l.segments_eq]
  refine Layout.exists_segment (Nat.zero_le k) ?_
  rw [Nat.zero_add]
  exact l.length_eq ▸ inside

/-- Segments lie side by side. -/
theorem segments_apart (l : Linked program options image) :
    image.segments.Pairwise fun s t => s.stop ≤ t.start := by
  rw [l.segments_eq]
  exact Layout.segments_pairwise

/-- A position is in one segment only. -/
theorem segment_unique (l : Linked program options image) {s t : Segment} {k : Nat}
    (mem : s ∈ image.segments) (mem' : t ∈ image.segments) (covers : s.Covers k) (covers' : t.Covers k) :
    s = t := by
  by_contra other
  -- Which of the two comes first is not known, so the order is said in a form that is symmetric.
  have apart : image.segments.Pairwise fun s t => s.stop ≤ t.start ∨ t.stop ≤ s.start :=
    l.segments_apart.imp .inl
  have symm : Std.Symm fun s t : Segment => s.stop ≤ t.start ∨ t.stop ≤ s.start := ⟨fun _ _ => Or.symm⟩
  have disjoint := apart.forall mem mem' other
  unfold Segment.Covers at covers covers'
  omega

/-- The segments have the names of the functions. -/
theorem names_perm (l : Linked program options image) :
    (image.segments.map Segment.name).Perm (l.functions.map CheckedFunction.name) := by
  rw [l.segments_eq, Layout.segments_names, compileAll_names l.compiled]
  exact layoutOrder_perm.map _

/-- Every function has a segment. -/
theorem exists_segment {name : String} {callee : Callee} (found : l.table.find? name = some callee) :
    ∃ s ∈ image.segments, s.name = name := by
  obtain ⟨f, mem, named, -⟩ := FunctionTable.of_find?_build found
  have listed : f.name ∈ image.segments.map Segment.name :=
    l.names_perm.mem_iff.2 (List.mem_map_of_mem mem)
  obtain ⟨s, mem, same⟩ := List.mem_map.1 listed
  exact ⟨s, mem, same.trans named⟩

/-- Segments with one name are one segment. -/
theorem names_nodup (l : Linked program options image) : (image.segments.map Segment.name).Nodup :=
  l.names_perm.nodup_iff.2 l.accepts.nodup

namespace Part

variable {l} {s : Segment} (p : l.Part s)

/-- The code in front of the function, its own, and the code behind it. -/
theorem code_split : l.object.code = p.before.flatMap Routine.code ++ (p.routine.code ++
    p.after.flatMap Routine.code) := by
  rw [Object.code, p.split, List.flatMap_append, List.flatMap_cons]

/-- The size of the segment is the room of the code. -/
theorem size_eq : s.size = room p.routine.code := by
  rw [Segment.size, p.stop_eq, Nat.add_sub_cancel_left]

/-- What is kept of the code stands in the segment. -/
theorem kept_getElem? {j : Nat} (inside : j < room p.routine.code) :
    (Code.kept l.object.code)[s.start + j]? = (Code.kept p.routine.code)[j]? := by
  rw [p.code_split, Code.kept_append, Code.kept_append, p.start_eq, ← Code.length_kept,
    List.getElem?_append_right (Nat.le_add_right _ _), Nat.add_sub_cancel_left,
    List.getElem?_append_left (Code.length_kept ▸ inside)]

/-- What stands in the segment is the code with its labels replaced. -/
theorem code_getElem? {j : Nat} (inside : j < room p.routine.code) :
    image.code[s.start + j]? = ((Code.kept p.routine.code)[j]?).map (Layout.resolve l.address) := by
  rw [l.code_eq, List.getElem?_map, p.kept_getElem? inside]

/-- The labels in the segment are those in the code. -/
theorem labelAt?_eq {j : Nat} (inside : j < room p.routine.code) :
    l.object.labelAt? (s.start + j) = ((Code.kept p.routine.code)[j]?).bind Instr.label? := by
  rw [Object.labelAt?, p.kept_getElem? inside]

/-- A position in the segment is one in the code. -/
theorem exists_of_covers {k : Nat} (covers : s.Covers k) : ∃ j < room p.routine.code, k = s.start + j := by
  have stop := p.stop_eq
  unfold Segment.Covers at covers
  exact ⟨k - s.start, by omega, by omega⟩

/-- The position of a label of the function is where its mark stands in the code. -/
theorem position_eq {front back : List Instr} {instr : Instr} {label : Label}
    (split : p.routine.code = front ++ instr :: back) (mark : instr.mark = some label) :
    l.object.position? label = some (s.start + room front) := by
  have placed : l.object.code = (p.before.flatMap Routine.code ++ front) ++ instr :: (back ++
      p.after.flatMap Routine.code) := by
    rw [p.code_split, split, List.append_assoc, List.append_assoc, List.cons_append]
  rw [l.position_eq placed mark, Layout.room_append, p.start_eq]

/-- The entry of the function is where the segment begins. -/
theorem entry_eq : l.object.position? p.callee.entry = some s.start := by
  obtain ⟨back, starts⟩ := p.code.starts
  have split : p.routine.code = [] ++ .marker p.callee.entry :: back := starts
  exact p.position_eq split rfl

end Part

end Linked

end Program

end GridStack
