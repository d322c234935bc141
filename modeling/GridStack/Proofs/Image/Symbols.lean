import GridStack.Proofs.Acceptance.Exact
import GridStack.Proofs.Linked

/-!
# Where functions begin

The code of a function is one of the routines, and these lie side by side. So of all entries only its own
is inside the code of a function (`Linked.name_eq_of_inside`), and the symbol of a function is where its
code begins (`Linked.symbol_entry`).
-/

namespace GridStack

open Machine (place)
open Layout (Stands room)

namespace FunctionTable

/-- Functions with one entry are one function. -/
theorem name_eq_of_entry {functions : List CheckedFunction} {next : Nat}
    (distinct : (functions.map CheckedFunction.name).Nodup) {name name' : String} {callee callee' : Callee}
    (found : (build functions next).find? name = some callee)
    (found' : (build functions next).find? name' = some callee') (same : callee.entry = callee'.entry) :
    name = name' := by
  obtain ⟨f, mem, rfl, -⟩ := of_find?_build found
  obtain ⟨g, mem', rfl, -⟩ := of_find?_build found'
  obtain ⟨i, at_i⟩ := List.getElem?_of_mem mem
  obtain ⟨j, at_j⟩ := List.getElem?_of_mem mem'
  rw [find?_build distinct at_i] at found
  rw [find?_build distinct at_j] at found'
  cases found
  cases found'
  -- The entry is the number of the function.
  obtain rfl : i = j := by
    have ids := congrArg Label.id same
    dsimp only at ids
    omega
  rw [Option.some.inj (at_i.symm.trans at_j)]

end FunctionTable

namespace Layout

/-- A symbol is that of a routine. -/
theorem mem_symbols {table : Positions} {routines : List Routine} {names : List Symbol}
    (h : symbols table routines = .ok names) {symbol : Symbol} (mem : symbol ∈ names) :
    ∃ routine ∈ routines, ∃ position, table.lookup routine.entry = some position ∧
      symbol = ⟨routine.name, UInt32.ofNat position⟩ := by
  induction routines generalizing names with
  | nil =>
    cases h
    contradiction
  | cons routine routines ih =>
    rw [symbols] at h
    split at h
    · contradiction
    · next position placed =>
      obtain ⟨others, rest, h⟩ := Check.bind_ok h
      cases h
      rcases List.mem_cons.1 mem with rfl | mem
      · exact ⟨routine, List.mem_cons_self, position, placed, rfl⟩
      · obtain ⟨routine', mem, found⟩ := ih rest mem
        exact ⟨routine', List.mem_cons_of_mem _ mem, found⟩

/-- The symbols of an image are those of its routines. -/
theorem ofRoutines_symbols {routines : List Routine} {image : Image}
    (h : Image.ofRoutines routines = .ok image) :
    symbols (positions 0 (routines.flatMap Routine.code)) routines = .ok image.symbols := by
  unfold Image.ofRoutines at h
  dsimp only at h
  split at h
  · contradiction
  · obtain ⟨code, -, h⟩ := Check.bind_ok h
    obtain ⟨names, found, h⟩ := Check.bind_ok h
    cases h
    exact found

end Layout

namespace Program

/-- A routine is what one of the functions is compiled to, with labels from the given one on. -/
theorem compile_of_mem_routines {table : FunctionTable} {fuse : Bool} {functions : List CheckedFunction}
    {next : Nat} {object : Object} (h : compileAll table fuse functions next = .ok object)
    {routine : Routine} (mem : routine ∈ object.routines) :
    ∃ f ∈ functions, ∃ exit next', next ≤ exit ∧ f.compile table fuse exit = .ok (routine, next') := by
  induction functions generalizing next object with
  | nil =>
    cases h
    contradiction
  | cons f fs ih =>
    obtain ⟨first, next', rest, compiles, others, rfl⟩ := compileAll_cons_ok h
    rcases List.mem_cons.1 mem with rfl | mem
    · exact ⟨f, List.mem_cons_self, next, next', Nat.le_refl _, compiles⟩
    · -- The labels of the other functions come behind those of the first one.
      obtain ⟨callee, -, -, rfl⟩ := CheckedFunction.compile_ok compiles
      obtain ⟨g, mem, exit, next'', behind, compiles⟩ := ih others mem
      exact ⟨g, List.mem_cons_of_mem _ mem, exit, next'', by omega, compiles⟩

/-- A routine is the code of one of the functions. -/
theorem exists_of_mem_routines {table : FunctionTable} {fuse : Bool} {functions : List CheckedFunction}
    {next : Nat} {object : Object} (h : compileAll table fuse functions next = .ok object)
    {routine : Routine} (mem : routine ∈ object.routines) :
    ∃ f ∈ functions, routine.name = f.name ∧ routine.entry = table.entryOf f := by
  obtain ⟨f, mem, exit, next', -, compiles⟩ := compile_of_mem_routines h mem
  exact ⟨f, mem, routine_of_compile compiles⟩

namespace Linked

variable {program : Program} {options : Options} {image : Image} {l : Linked program options image}
  {grid : Grid} {name name' : String} {callee callee' : Callee}

/-- Positions in code are small numbers. -/
theorem room_lt {front block : List Instr} (stands : Stands (l.scene grid).all front block) :
    room (front ++ block) < 2147483648 := by
  have size := (l.scene grid).laid.size
  have short := (l.scene grid).laid.short
  have le := stands.room_le
  omega

namespace Placement

/-- The entry of a function is where its code begins. -/
theorem starts (p : l.Placement grid name callee) : ∃ back, p.block = .marker callee.entry :: back :=
  p.code.starts

/-- The address of the entry of a function. -/
theorem address_eq (p : l.Placement grid name callee) :
    ((l.scene grid).address callee.entry).toInt64 = place p.front := by
  obtain ⟨back, starts⟩ := p.starts
  have stands := p.stands
  rw [starts] at stands
  exact Scene.address_eq stands

/-- The code of a function begins at the position that is the address of its entry. -/
theorem room_eq (p : l.Placement grid name callee) {position : Nat}
    (entry : ((l.scene grid).address callee.entry).toInt64 = Int64.ofNat position)
    (small : position < 2147483648) : room p.front = position := by
  have small' := room_lt p.stands
  rw [Layout.room_append] at small'
  -- So small numbers are different addresses.
  have same := congrArg Int64.toInt (p.address_eq.symm.trans entry)
  rw [place, Int64.toInt_ofNat_of_lt (by omega), Int64.toInt_ofNat_of_lt (by omega)] at same
  omega

/-- The code of a function is that of a declaration. -/
theorem exists_decl (p : l.Placement grid name callee) :
    ∃ decl ∈ program.functions, decl.name = name ∧ decl.body = p.f.body := by
  obtain ⟨mem, named⟩ := Lowered.of_lookup_numbered p.known
  obtain ⟨decl, mem', accepts⟩ := exists_declared l.accepts.pairs (mem_layoutOrder.1 mem)
  exact ⟨decl, mem', accepts.name_eq.symm.trans named, accepts.body_eq.symm⟩

/-- A routine that begins inside the code of a function is the code of this function. -/
theorem entry_eq_of_inside (p : l.Placement grid name callee) (p' : l.Placement grid name' callee')
    (low : room p.front ≤ room p'.front) (high : room p'.front < room (p.front ++ p.block)) :
    callee'.entry = callee.entry := by
  have some_room : 0 < room p'.block := p'.code.some_room
  have same_block : p.routine = p'.routine → callee'.entry = callee.entry := by
    intro same
    obtain ⟨back, starts⟩ := p.starts
    obtain ⟨back', starts'⟩ := p'.starts
    rw [p.block_eq, same, ← p'.block_eq, starts'] at starts
    have marks := congrArg Instr.mark (List.cons.inj starts).1
    exact Option.some.inj marks
  rw [p.block_eq, p.front_eq] at high
  rw [p.front_eq, p'.front_eq] at low
  rw [p'.front_eq] at high
  rw [p'.block_eq] at some_room
  -- One of the two lists of routines in front goes on from the other.
  rcases List.append_eq_append_iff.1 (p.split.symm.trans p'.split) with
    ⟨_ | ⟨first, between⟩, front_eq, rest_eq⟩ | ⟨_ | ⟨first, between⟩, front_eq, rest_eq⟩
  · exact same_block (List.cons.inj rest_eq).1
  · -- The other routine lies behind.
    rw [front_eq, ← (List.cons.inj rest_eq).1, List.flatMap_append, List.flatMap_cons] at high
    simp only [Layout.room_append] at high
    omega
  · exact same_block (List.cons.inj rest_eq).1.symm
  · -- The other routine lies in front.
    rw [front_eq, ← (List.cons.inj rest_eq).1, List.flatMap_append, List.flatMap_cons] at low
    simp only [Layout.room_append] at low
    omega

end Placement

/-- The only function that is entered inside the code of a function is this function. -/
theorem name_eq_of_inside (p : l.Placement grid name callee) (found : l.table.find? name = some callee)
    (found' : l.table.find? name' = some callee') {position : Nat}
    (entry : ((l.scene grid).address callee'.entry).toInt64 = Int64.ofNat position)
    (low : room p.front ≤ position) (high : position < room (p.front ++ p.block)) : name' = name := by
  obtain ⟨p'⟩ := l.exists_placement grid found'
  have here : room p'.front = position := p'.room_eq entry (Nat.lt_trans high (room_lt p.stands))
  rw [← here] at low high
  exact FunctionTable.name_eq_of_entry l.accepts.nodup found' found (p.entry_eq_of_inside p' low high)

/-- No position is `halt`. -/
theorem ofNat_ne_halt {position : Nat} (small : position < 2147483648) :
    Int64.ofNat position ≠ halt.toInt64 := by
  intro eq
  have same := congrArg Int64.toInt eq
  have below : halt.toInt64.toInt = -1 := rfl
  rw [Int64.toInt_ofNat_of_lt (by omega), below] at same
  omega

/-- No function is entered at `halt`. -/
theorem address_ne_halt (grid : Grid) (found : l.table.find? name = some callee) :
    ((l.scene grid).address callee.entry).toInt64 ≠ halt.toInt64 := by
  obtain ⟨p⟩ := l.exists_placement grid found
  have small := room_lt p.stands
  rw [Layout.room_append] at small
  rw [p.address_eq]
  exact ofNat_ne_halt (by omega)

/-- A declared function is in the table. -/
theorem exists_callee {decl : FunctionDecl} (declared : decl ∈ program.functions) :
    ∃ callee, l.table.find? decl.name = some callee ∧ callee.params = decl.params.length := by
  obtain ⟨f, mem, accepts⟩ := exists_checked l.accepts.pairs declared
  obtain ⟨i, at_index⟩ := List.getElem?_of_mem mem
  have found : l.table.find? f.name = some _ := FunctionTable.find?_build l.accepts.nodup at_index
  rw [accepts.name_eq] at found
  exact ⟨_, found, accepts.params_eq⟩

/-- The symbol of a function is the position of its entry. -/
theorem symbol_entry (grid : Grid) (found : l.table.find? name = some callee) {symbol : Symbol}
    (mem : symbol ∈ image.symbols) (named : symbol.name = name) :
    ((l.scene grid).address callee.entry).toInt64 = Int64.ofNat symbol.entry.toNat := by
  obtain ⟨routine, mem', position, placed, rfl⟩ := Layout.mem_symbols (Layout.ofRoutines_symbols l.laid) mem
  obtain ⟨f, -, named', entry⟩ := exists_of_mem_routines l.compiled mem'
  -- The label that is looked up is the one in the table.
  have same : routine.entry = callee.entry := by
    have named : routine.name = name := named
    rw [entry, FunctionTable.entryOf, ← named', named]
    show ((l.table.find? name).map Callee.entry).getD default = _
    rw [found]
    rfl
  obtain ⟨p⟩ := l.exists_placement grid found
  have small := room_lt p.stands
  rw [Layout.room_append] at small
  obtain ⟨back, starts⟩ := p.starts
  obtain ⟨rest, split⟩ : ∃ rest, (l.scene grid).all = p.front ++ .marker callee.entry :: rest := by
    have stands := p.stands
    rw [starts] at stands
    exact stands.split
  -- The position of this label is the room in front of the code that it marks.
  have at_front : room p.front = position := by
    have nodup := (Layout.ofRoutines_ok l.laid).1
    have split : l.object.routines.flatMap Routine.code = p.front ++ .marker callee.entry :: rest := split
    rw [split] at nodup placed
    rw [same, Layout.lookup_positions nodup rfl] at placed
    exact Option.some.inj placed
  have word : (UInt32.ofNat position).toNat = position := UInt32.toNat_ofNat_of_lt' (by
    show position < 2 ^ 32
    omega)
  rw [p.address_eq, place, at_front]
  exact congrArg Int64.ofNat word.symm

end Linked

end Program

end GridStack
