import GridStack.Proofs.Simulation.Pieces

/-!
# The calling convention

A callee is entered with its arguments on the stack, the caller's base below them and the address to come
back to below that. `Scene.Calls` is what is required of callees: they take all of this off the stack, the
address as the last word, and keep what is further below. What they are to do is given by an evaluation.

`call_realizes` is the whole of a call up to that last pop, on the assumption that its arguments do what
their evaluation says. Until the pop has been made the call is `Machine.Pending`: what the caller had on
the stack is untouched, and control has not come back to it. There are four parts, the variables that are
saved, the arguments, the way to the callee, and the callee. In the first one the machine is in front of
the place to come back to; in the others something lies above the saved variables.
-/

namespace GridStack

namespace Machine

open Layout (Laid Stands room)

/-- The stack of a caller is kept, and the machine is not back at the address `resume` with the stack at
the given height. -/
def Pending (floor : List Int64) (height : Nat) (resume : Int64) (m : Machine) : Prop :=
  floor <:+ m.stack.values ∧ ¬ (m.pc = resume ∧ m.stack.height = height)

/-- A call is pending as long as more is kept than what is there when it is back. -/
theorem Keeps.pending {above floor : List Int64} {height : Nat} {resume : Int64} {m : Machine}
    (h : Keeps (above ++ floor) m) (higher : height < above.length + floor.length) :
    Pending floor height resume m := by
  refine ⟨(List.suffix_append above floor).trans h, ?_⟩
  rintro ⟨-, low⟩
  have reach := h.length_le
  rw [List.length_append, ← m.stack.height_eq] at reach
  omega

/-- Positions in code are different addresses. -/
theorem ofNat_ne_place {n : Nat} {front : List Instr} (h : n < room front) (small : room front < 2147483648) :
    Int64.ofNat n ≠ place front := by
  intro eq
  have same := congrArg Int64.toInt eq
  unfold place at same
  rw [Int64.toInt_ofNat_of_lt (by omega), Int64.toInt_ofNat_of_lt (by omega)] at same
  omega

/-- A call is pending in front of the place to come back to. -/
theorem Within.pending {floor : List Int64} {first last height : Nat} {front : List Instr} {m : Machine}
    (h : Within floor first last m) (before : last < room front) (small : room front < 2147483648) :
    Pending floor height (place front) m := by
  obtain ⟨suffix, n, -, hn, pc⟩ := h
  refine ⟨suffix, ?_⟩
  rintro ⟨back, -⟩
  exact ofNat_ne_place (by omega) small (pc.symm.trans back)

end Machine

/-- Code that stands is no longer than all code. -/
theorem Layout.Stands.room_le {all front block : List Instr} (h : Layout.Stands all front block) :
    Layout.room (front ++ block) ≤ Layout.room all := by
  obtain ⟨back, eq⟩ := h
  rw [← eq, Layout.room_append (front ++ block)]
  omega

namespace Scene

open Machine (Realizes Keeps Pending place Path)
open Layout (Stands room)

variable {s : Scene} {fuel : Nat} {site : Site} {call : String → List Int64 → Lowered Unit}

/-- Callees do what their evaluation says: from their entry on until they are about to pop the address to
come back to. A callee out of fuel may have made one step less, the caller has made it. -/
def Calls (s : Scene) (table : FunctionTable) (fuel : Nat)
    (call : String → List Int64 → Lowered Unit) : Prop :=
  ∀ ⦃name : String⦄ ⦃callee : Callee⦄ ⦃args rest : List Int64⦄ ⦃m : Machine⦄ ⦃base saved ret : Int64⦄
    ⦃cells : Cells⦄, table.find? name = some callee → args.length = callee.params →
    m.Shows s.grid (s.address callee.entry).toInt64 (ret :: rest) ⟨base, args.reverse ++ [saved], cells⟩ →
    Realizes s.code (Keeps (ret :: rest)) (fuel - 1) m (call name args cells) fun _ after m' =>
      ∃ next, m'.advance? s.code = some next ∧ next.Shows s.grid ret rest ⟨saved, [], after⟩

/-- The stack behind the first half of a call: the base, the address to come back to, the variables. -/
def saved (s : Scene) (site : Site) (resume : Label) (base : Int64) (values : Nat → Int64) : List Int64 :=
  base :: (s.address resume).toInt64 :: (List.range site.function.vars.length).map values

/-- The first half of a call saves the variables. -/
theorem run_save (few : site.function.vars.length ≤ maxVariables) {resume : Label} {base : Int64}
    {cells : Cells} {values : Nat → Int64} (known : ∀ i < 5, cells.vars i = some (values i)) :
    View.run s.address s.grid (Code.save site resume) ⟨base, [], cells⟩
      = some ⟨base, s.saved site resume base values, cells⟩ := by
  have low : ∀ i ∈ (List.range site.function.vars.length).reverse, i < 5 := by
    intro i mem
    rw [List.mem_reverse, List.mem_range] at mem
    exact index_lt_five few mem
  have window : (Emit.window site).reverse
      = (List.range site.function.vars.length).reverse.map Register.ofVar := by
    unfold Emit.window
    rw [List.map_reverse]
  unfold Code.save
  rw [window, View.run_append (run_pushes low known base []), List.map_reverse, List.reverse_reverse,
    List.append_nil]
  rfl

/-- The second half of a call leaves the stack and the cells as they are. -/
theorem run_enter (offset base : Int64) (operand : Int32) (stack : List Int64) (cells : Cells)
    (h : operand.toInt64 = offset) :
    View.run s.address s.grid [.imm .push Register.base, .imm .const operand, .plain .add,
        .imm .pop Register.base] ⟨base, stack, cells⟩
      = some ⟨wrap (base + offset), stack, cells⟩ := by
  subst h
  rfl

/-- The way from the arguments to the callee: the base is moved on, and everything else is left as it
is. -/
theorem enter_path {front back : List Instr} {offset : Int} {entry : Label}
    (stands : Stands s.all front (Code.enter offset entry ++ back)) {m : Machine} {floor stack : List Int64}
    {base : Int64} {cells : Cells} (shows : m.Shows s.grid (place front) floor ⟨base, stack, cells⟩) :
    ∃ k last, Path s.code (Keeps floor) k m last ∧ 1 ≤ k ∧
      last.Shows s.grid (s.address entry).toInt64 floor
        ⟨wrap (base + (Int32.ofInt offset).toInt64), stack, cells⟩ := by
  have parts : Stands s.all front ([Instr.imm .push Register.base, .imm .const (Int32.ofInt offset),
      .plain .add, .imm .pop Register.base] ++ (Code.jump (.label entry) ++ back)) := stands
  obtain ⟨between, moves, shows'⟩ := Machine.block_path s.laid parts.left shows (run_enter _ _ _ _ _ rfl)
  obtain ⟨last, jumps, shows''⟩ := Machine.jump_path s.laid parts.right shows'
  exact ⟨_, last, (moves.mono fun _ within => within.1).trans jumps, by omega, shows''⟩

/-- A call, until the callee is about to come back. -/
theorem call_realizes (calls : s.Calls site.table fuel call)
    (few : site.function.vars.length ≤ maxVariables) {name : String} {callee : Callee}
    (found : site.table.find? name = some callee) {front block : List Instr} {offset : Int}
    {resume : Label}
    (stands : Stands s.all front (Code.save site resume ++ (block ++
      (Code.enter offset callee.entry ++ ([Instr.marker resume] ++ Code.restore site)))))
    {args : Lowered (List Int64)}
    (runs : s.Runs fuel (place (front ++ Code.save site resume)) [] args
      (fun _ => place (front ++ Code.save site resume ++ block)) List.reverse)
    (arity : ∀ values, args.Yields values → values.length = callee.params)
    {m : Machine} {floor : List Int64} {base : Int64} {cells : Cells} {values : Nat → Int64}
    (known : ∀ i < 5, cells.vars i = some (values i))
    (shows : m.Shows s.grid (place front) floor ⟨base, [], cells⟩) :
    Realizes s.code
      (Pending floor (floor.length + site.function.vars.length) (s.address resume).toInt64) fuel m
      ((args >>= call name) cells) fun _ after m' => ∃ next, m'.advance? s.code = some next ∧
        next.Shows s.grid (s.address resume).toInt64
          ((List.range site.function.vars.length).map values ++ floor) ⟨base, [], after⟩ := by
  have back : (s.address resume).toInt64
      = place (front ++ Code.save site resume ++ block ++ Code.enter offset callee.entry) :=
    address_eq stands.right.right.right.left
  have small : room (front ++ Code.save site resume ++ block ++ Code.enter offset callee.entry)
      < 2147483648 := by
    have le := stands.right.right.left.room_le
    have short := s.laid.short
    rw [s.laid.size] at short
    omega
  have in_front : room (front ++ Code.save site resume)
      < room (front ++ Code.save site resume ++ block ++ Code.enter offset callee.entry) := by
    have six : room (Code.enter offset callee.entry) = 6 := rfl
    rw [Layout.room_append _ (Code.enter offset callee.entry), Layout.room_append _ block]
    omega
  have count : ((List.range site.function.vars.length).map values).length
      = site.function.vars.length := by
    rw [List.length_map, List.length_range]
  -- The variables are saved in front of the place to come back to.
  obtain ⟨m₁, save, shows₁⟩ := Machine.block_path s.laid stands.left shows (run_save few known)
  have raised : m₁.Shows s.grid (place (front ++ Code.save site resume))
      (s.saved site resume base values ++ floor) ⟨base, [], cells⟩ := shows₁.reframe rfl
  refine (Realizes.after (save.mono fun m within => ?_)
    (Realizes.bind ((runs raised).mono (Nat.le_refl fuel) (fun m keeps => ?_)
      fun _ _ _ h => h) ?_)).mono (Nat.le_add_left _ _) (fun _ h => h) fun _ _ _ h => h
  · rw [back]
    exact within.pending in_front small
  · exact Keeps.pending keeps (by unfold saved; simp only [List.length_cons, count]; omega)
  -- From here on the address to come back to lies above the variables.
  intro arguments after m₂ yields shows₂
  have above : ∀ m, Keeps ((s.address resume).toInt64 ::
      ((List.range site.function.vars.length).map values ++ floor)) m →
      Pending floor (floor.length + site.function.vars.length) (s.address resume).toInt64 m := by
    intro m keeps
    rw [← List.cons_append] at keeps
    exact keeps.pending (by rw [List.length_cons, count]; omega)
  have lowered : m₂.Shows s.grid (place (front ++ Code.save site resume ++ block))
      ((s.address resume).toInt64 :: ((List.range site.function.vars.length).map values ++ floor))
      ⟨base, arguments.reverse ++ [base], after⟩ := shows₂.reframe (by unfold saved; simp)
  obtain ⟨k, m₃, way, one, shows₃⟩ := enter_path stands.right.right lowered
  have called := calls found (arity arguments ⟨_, _, yields⟩) shows₃
  -- A step of the way makes up for the one that a callee out of fuel may not have made.
  refine (Realizes.after (way.mono above) (called.mono (Nat.le_refl _) above fun _ _ _ h => h)).mono
    ?_ (fun _ h => h) fun _ _ _ h => h
  omega

/-- The restoring pops give the variables what they had before. -/
theorem run_restore (few : site.function.vars.length ≤ maxVariables) {base : Int64}
    {before after : Cells} {values : Nat → Int64} (known : ∀ i < 5, before.vars i = some (values i)) :
    View.run s.address s.grid (Code.restore site)
        ⟨base, (List.range site.function.vars.length).map values, after⟩
      = some ⟨base, [], { after with vars := fun i =>
          if i < site.function.vars.length then before.vars i else after.vars i }⟩ := by
  have low : ∀ i ∈ List.range site.function.vars.length, i < 5 := fun i mem =>
    index_lt_five few (List.mem_range.1 mem)
  have popped : View.run s.address s.grid (Code.restore site)
      ⟨base, (List.range site.function.vars.length).map values ++ [], after⟩
        = some ⟨base, [], after.assign (List.range site.function.vars.length) values⟩ :=
    run_pops low base [] after
  rw [List.append_nil] at popped
  refine popped.trans ?_
  unfold Cells.assign
  congr 3
  funext i
  by_cases hi : i < site.function.vars.length
  · rw [if_pos (List.mem_range.2 hi), if_pos hi, known i (index_lt_five few hi)]
  · rw [if_neg (by rwa [List.mem_range]), if_neg hi]

/-- A whole call. -/
theorem call_runs (calls : s.Calls site.table fuel call)
    (few : site.function.vars.length ≤ maxVariables) {name : String} {callee : Callee}
    (found : site.table.find? name = some callee) {front block : List Instr} {offset : Int}
    {resume : Label}
    (stands : Stands s.all front (Code.save site resume ++ (block ++
      (Code.enter offset callee.entry ++ ([Instr.marker resume] ++ Code.restore site)))))
    {args : Lowered (List Int64)}
    (runs : s.Runs fuel (place (front ++ Code.save site resume)) [] args
      (fun _ => place (front ++ Code.save site resume ++ block)) List.reverse)
    (arity : ∀ values, args.Yields values → values.length = callee.params) :
    s.Runs fuel (place front) [] (Lowered.saving site.function (args >>= call name))
      (fun _ => place (front ++ (Code.save site resume ++ (block ++
        (Code.enter offset callee.entry ++ ([Instr.marker resume] ++ Code.restore site))))))
      fun _ => [] := by
  intro m floor base cells shows
  -- The contents that the variables have now are the ones that they get back.
  obtain ⟨values, known⟩ := shows.known.values
  have realizes := (call_realizes calls few found stands runs arity known shows).with_inv
  rw [Lowered.saving_eq]
  refine Realizes.bind (realizes.mono (Nat.le_refl fuel) (fun m pending => pending.1) fun _ _ _ h => h) ?_
  rintro _ after m₁ - ⟨⟨suffix, -⟩, m₂, advances, shows₂⟩
  have back : (s.address resume).toInt64 = place (front ++ Code.save site resume ++ block ++
      Code.enter offset callee.entry ++ [Instr.marker resume]) :=
    (address_eq stands.right.right.right.left).trans (place_marker resume).symm
  rw [back] at shows₂
  have lowered : m₂.Shows s.grid (place (front ++ Code.save site resume ++ block ++
      Code.enter offset callee.entry ++ [Instr.marker resume])) floor
      ⟨base, (List.range site.function.vars.length).map values, after⟩ := shows₂.reframe rfl
  obtain ⟨m₃, pops, shows₃⟩ := Machine.block_path s.laid stands.right.right.right.right lowered
    (run_restore few known)
  rw [List.append_assoc, List.append_assoc, List.append_assoc, List.append_assoc] at shows₃
  have pops' := pops.mono fun _ within => within.1
  exact ⟨_, m₃, .step suffix advances pops', shows₃⟩

end Scene

end GridStack
