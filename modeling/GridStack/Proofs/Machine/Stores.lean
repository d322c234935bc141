import GridStack.Proofs.Machine.Path

/-!
# What a read sees

The cells of the grid get values in two ways: they are given from outside between runs, and programs write
them. A `History` is a machine that has been used for both, with all of these stores in their order. Nothing
that a program writes comes back to it: a read leaves the value that the cell was given last, and zero in a
cell that was given none, however often programs have written to it (`input_reads`). So a read sees the last
store to a cell as long as this is not one of a program; that of a program it does not see
(`output_unread`).

The reason is that a step keeps the grid and only adds to the log (`Machine.Precedes`). This is seen on the rules
of the instructions and carried to paths and runs, and it holds of steps that fault, too.
-/

namespace GridStack

namespace Machine

/-- One machine comes before another: both have the same grid, and what the first one has written has been
written by the second one, too. -/
structure Precedes (m m' : Machine) : Prop where
  grid_eq : m'.grid = m.grid
  log_suffix : m.log <:+ m'.log

namespace Precedes

variable {m m' m'' : Machine}

/-- Doing nothing adds nothing to the log. -/
theorem refl (m : Machine) : m.Precedes m :=
  ⟨rfl, List.suffix_refl _⟩

/-- What is done later comes on top of what was done before. -/
theorem trans (h : m.Precedes m') (h' : m'.Precedes m'') : m.Precedes m'' :=
  ⟨h'.grid_eq.trans h.grid_eq, h.log_suffix.trans h'.log_suffix⟩

end Precedes

variable {m m' next stopped : Machine} {instr : Instruction} {code : Array Instruction}

/-- An instruction keeps the grid, and what it writes comes on top of the log. -/
theorem Executes.precedes (h : m.Executes instr next) : m.Precedes next := by
  cases h with
  | output => exact ⟨rfl, List.suffix_cons _ m.log⟩
  | _ => exact ⟨rfl, List.suffix_refl m.log⟩

/-- An instruction that fails may have popped, and yet leaves the grid and takes nothing off the log. -/
theorem Breaks.precedes {fault : Fault} (h : m.Breaks fault stopped) : m.Precedes stopped := by
  obtain ⟨stack, rfl⟩ := h.only_stack
  exact ⟨rfl, List.suffix_refl m.log⟩

/-- A step begins with the grid and the log as they are. -/
theorem precedes_begun (m : Machine) : m.Precedes m.begun :=
  ⟨rfl, List.suffix_refl m.log⟩

/-- A machine comes before the next one. -/
theorem Precedes.advance (advances : m.advance? code = some next) : m.Precedes next := by
  obtain ⟨instr, -, executes⟩ := advance?_iff_executes.1 advances
  exact m.precedes_begun.trans executes.precedes

/-- A machine comes before all that it leads to. -/
theorem Precedes.path {inv : Machine → Prop} {k : Nat} (path : Path code inv k m m') : m.Precedes m' :=
  path.preserves (.refl m) fun _ _ before advances => before.trans (.advance advances)

/-- A machine comes before the one that a run ends in, however it ends. -/
theorem Precedes.runFor (limits : Limits) (code : Array Instruction) (remaining : Nat) (m : Machine) :
    m.Precedes (m.runFor limits code remaining).machine := by
  induction remaining generalizing m with
  | zero =>
    rw [Machine.runFor]
    split
    · exact .refl m
    · exact ⟨rfl, List.suffix_refl m.log⟩
  | succ remaining ih =>
    rw [Machine.runFor]
    cases m.fetch? code with
    | none => exact .refl m
    | some instr =>
      dsimp only
      cases stepped : step instr { m with steps := m.steps + 1 } with
      | error fault stopped => exact m.precedes_begun.trans (step_error stepped).precedes
      | ok _ next =>
        have precedes := m.precedes_begun.trans (step_eq_ok_iff.1 stepped).precedes
        dsimp only
        split
        · exact precedes
        · exact precedes.trans (ih next)

/-- A read of a cell takes the two coordinates off the stack and leaves what the grid has there. -/
theorem advance?_of_input {instr : Instruction} {x y : Int64} {rest : List Int64}
    (fetched : m.fetch? code = some instr) (reads : instr.op = .input)
    (operands : m.stack.values = y :: x :: rest) :
    ∃ next, m.advance? code = some next ∧ next.scratch = m.grid.read x y := by
  have top : m.stack = (Stack.push x ⟨rest, rest.length, rfl⟩).push y := Stack.ext_values operands
  obtain ⟨op, a, b⟩ := instr
  obtain rfl : op = .input := reads
  refine ⟨_, advance?_iff_executes.2 ⟨_, fetched, .input top⟩, ?_⟩
  simp [scratch, setScratch, begun, setPc]

end Machine

/-- A value that is put into a cell. -/
structure Store where
  write : Write
  /-- Whether it is given from outside, and not written by a program. -/
  given : Bool
deriving DecidableEq

namespace Store

/-- Whether a store is one to a cell. -/
def into (x y : Int64) (s : Store) : Bool :=
  s.write.x = x ∧ s.write.y = y

/-- The value of the last store to a cell, zero if there is none. The stores are listed with the last one
first. -/
def last (stores : List Store) (x y : Int64) : Int64 :=
  ((stores.find? (into x y)).map fun s => s.write.value).getD 0

variable {stores : List Store} {x y : Int64}

/-- A store changes one cell. -/
theorem last_cons (s : Store) : last (s :: stores) x y
    = if s.write.x = x ∧ s.write.y = y then s.write.value else last stores x y := by
  unfold last
  rw [List.find?_cons]
  by_cases here : s.write.x = x ∧ s.write.y = y
  · have found : s.into x y = true := decide_eq_true here
    rw [found, if_pos here]
    rfl
  · have other : s.into x y = false := decide_eq_false here
    rw [other, if_neg here]

/-- When the last store to a cell is one of a kind, those of the other kind do not matter. -/
theorem last_filter {kind : Store → Bool} (h : ∀ s ∈ stores.find? (into x y), kind s = true) :
    last (stores.filter kind) x y = last stores x y := by
  -- The last store to the cell is the first in the list, and what comes behind it does not matter.
  induction stores with
  | nil => rfl
  | cons s stores ih =>
    rw [last_cons]
    by_cases here : s.write.x = x ∧ s.write.y = y
    · have found : s.into x y = true := decide_eq_true here
      have of_kind : kind s = true := h s (by rw [List.find?_cons, found]; rfl)
      rw [if_pos here, List.filter_cons, if_pos of_kind, last_cons, if_pos here]
    · have other : s.into x y = false := decide_eq_false here
      have rest : last (stores.filter kind) x y = last stores x y := by
        refine ih fun t found => h t ?_
        rwa [List.find?_cons, other]
      rw [if_neg here, ← rest, List.filter_cons]
      split
      · rw [last_cons, if_neg here]
      · rfl

end Store

/-- A machine with all stores to its cells so far, the last one first. -/
structure History where
  machine : Machine
  stores : List Store

/-- What is done with a machine from outside. -/
inductive Event
  | give (x y value : Int64)
  | run (limits : Limits) (image : Image)

namespace History

/-- A machine that has not been used. -/
def new : History :=
  ⟨.fresh, []⟩

/-- A cell is given a value. -/
def give (h : History) (x y value : Int64) : History :=
  ⟨h.machine.setInput x y value, ⟨⟨x, y, value⟩, true⟩ :: h.stores⟩

/-- The machine has become another one: what is new in its log are stores. -/
def reach (h : History) (m : Machine) : History :=
  ⟨m, (m.log.take (m.log.length - h.machine.log.length)).map (⟨·, false⟩) ++ h.stores⟩

/-- What is done comes on top of what was done before. -/
def next (h : History) : Event → History
  | .give x y value => h.give x y value
  | .run limits image => h.reach (h.machine.run limits image).machine

/-- The history of events from the first one on. -/
def follow (events : List Event) : History :=
  events.foldl next new

/-- The stores of a history are those that the machine has: the given ones are in its grid, the others in its
log. -/
structure Faithful (h : History) : Prop where
  read_eq : ∀ x y, h.machine.grid.read x y = Store.last (h.stores.filter Store.given) x y
  log_eq : h.machine.log = (h.stores.filter fun s => !s.given).map Store.write

namespace Faithful

variable {h : History}

/-- A machine that has not been used has no stores. -/
theorem new : new.Faithful :=
  ⟨fun _ _ => rfl, rfl⟩

/-- A cell that is given a value has this value. -/
theorem give (faithful : h.Faithful) (x y value : Int64) : (h.give x y value).Faithful := by
  refine ⟨fun x' y' => ?_, faithful.log_eq⟩
  have stores : (h.give x y value).stores.filter Store.given
      = ⟨⟨x, y, value⟩, true⟩ :: h.stores.filter Store.given := rfl
  rw [stores, Store.last_cons, ← faithful.read_eq]
  show Grid.read (((x, y), value) :: h.machine.grid) x' y' = _
  unfold Grid.read
  rw [List.lookup_cons]
  by_cases here : x = x' ∧ y = y'
  · obtain ⟨rfl, rfl⟩ := here
    simp
  · have other : ((x', y') == (x, y)) = false := by
      rw [beq_eq_false_iff_ne]
      rintro ⟨⟩
      exact here ⟨rfl, rfl⟩
    rw [other, if_neg here]

/-- What a machine does on its own leaves the grid as it is, and all that it writes are stores. -/
theorem reach (faithful : h.Faithful) {m : Machine} (precedes : h.machine.Precedes m) :
    (h.reach m).Faithful := by
  -- What the machine has put in front of the old log are the new writes.
  obtain ⟨new, log⟩ := precedes.log_suffix
  have stores : (h.reach m).stores = new.map (⟨·, false⟩) ++ h.stores := by
    unfold History.reach
    rw [← log, List.length_append, Nat.add_sub_cancel, List.take_left]
  constructor
  · intro x y
    have none_given : (new.map fun w => Store.mk w false).filter Store.given = [] := by
      simp [List.filter_map]
    rw [stores, List.filter_append, none_given, List.nil_append, ← faithful.read_eq]
    show m.grid.read x y = _
    rw [precedes.grid_eq]
  · have all_written :
        ((new.map fun w => Store.mk w false).filter fun s => !s.given).map Store.write = new := by
      simp [List.filter_map, Function.comp_def]
    rw [stores, List.filter_append, List.map_append, all_written, ← faithful.log_eq]
    exact log.symm

/-- Whatever happens, the history is faithful. -/
theorem follow (events : List Event) : (History.follow events).Faithful := by
  refine List.foldlRecOn events History.next new fun h faithful event _ => ?_
  cases event with
  | give x y value => exact faithful.give x y value
  | run limits image => exact faithful.reach (.runFor _ _ _ _)

end Faithful

/-- The stores to all cells at a moment of a run that comes behind the events. -/
def storesAt (events : List Event) (m : Machine) : List Store :=
  ((follow events).reach m).stores

end History

open History Machine in
/-- A read leaves the value that its cell was given last, whatever programs have written to the cell. So it
leaves the value of the last store to the cell, unless this is one that a program has made. -/
theorem input_reads (events : List Event) {image : Image} {k : Nat} {m : Machine} {instr : Instruction}
    {x y : Int64} {rest : List Int64}
    (path : Path image.code.toArray (fun _ => True) k (follow events).machine m)
    (fetched : m.fetch? image.code.toArray = some instr) (reads : instr.op = .input)
    (operands : m.stack.values = y :: x :: rest) :
    ∃ next, m.advance? image.code.toArray = some next ∧
      next.scratch = Store.last ((storesAt events m).filter Store.given) x y ∧
      ((∀ s ∈ (storesAt events m).find? (Store.into x y), s.given = true) →
        next.scratch = Store.last (storesAt events m) x y) := by
  have faithful : ((follow events).reach m).Faithful := (Faithful.follow events).reach (.path path)
  obtain ⟨next, advances, scratch⟩ := advance?_of_input fetched reads operands
  have value : next.scratch = Store.last ((storesAt events m).filter Store.given) x y :=
    scratch.trans (faithful.read_eq x y)
  exact ⟨next, advances, value, fun given => value.trans (Store.last_filter given)⟩

namespace History

/-- Writes 5 to the cell (0, 0) and reads this cell. -/
def echo : Image :=
  ⟨[⟨.const, some 5, none⟩, ⟨.pop, some Register.scratch, none⟩, ⟨.const, some 0, none⟩,
    ⟨.const, some 0, none⟩, ⟨.output, none, none⟩, ⟨.const, some 0, none⟩, ⟨.const, some 0, none⟩,
    ⟨.input, none, none⟩], []⟩

/-- The machine in front of the read, when the cell (0, 0) was given a value or not. -/
def echoed (grid : Grid) : Machine :=
  { (Machine.fresh.setPc 7).setScratch 5 with
    stack := (Stack.empty.push 0).push 0
    grid
    log := [⟨0, 0, 5⟩]
    steps := 7 }

open Machine in
/-- When the cell has been given 9, this is what is read, although 5 has been written behind it. -/
theorem input_reads_given : ∃ next, (echoed [((0, 0), 9)]).advance? echo.code.toArray = some next ∧
    next.scratch = 9 := by
  have path : Path echo.code.toArray (fun _ => True) 7 (follow [.give 0 0 9]).machine
      (echoed [((0, 0), 9)]) := path_iff.2 (by decide +kernel)
  obtain ⟨next, advances, value, -⟩ := input_reads [.give 0 0 9] path rfl rfl rfl
  exact ⟨next, advances, value.trans (by decide +kernel)⟩

open Machine in
/-- A read does not see the value that the program itself has written to the cell. -/
theorem output_unread : ∃ next, Path echo.code.toArray (fun _ => True) 7 (follow []).machine (echoed []) ∧
    (echoed []).advance? echo.code.toArray = some next ∧ next.scratch = 0 ∧
    Store.last (storesAt [] (echoed [])) 0 0 = 5 := by
  refine ⟨{ fresh.setPc 8 with log := [⟨0, 0, 5⟩], steps := 8 }, path_iff.2 (by decide +kernel), ?_⟩
  decide +kernel

end History

end GridStack
