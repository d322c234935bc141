import GridStack.Proofs.Frames.Leads
import GridStack.Proofs.Frames.Points
import GridStack.Proofs.Simulation.Call

/-!
# Calls and frames

A callee gets a base that is too high by as many words as the count of words is at its call
(`CallPoint.excess`), besides what the base of the caller is too high by.

An `Activation` is a function under way, with its base and with what lies on the stack below its own words.
`Activation.call_leads` is a whole call: whatever the callee does, its caller has base and stack as before
when control is back. It needs that the callee may be under way with the base that it gets, above what the
call has put on the stack (`Scene.Permits`), and that callees come back in this way (`Scene.Answers`) for one
step less.
-/

namespace GridStack

open Machine (Until place)
open Layout (Stands room resolved)

/-- A machine is about to jump to the entry of a function, at the end of what a call does in front of its
callee: the base has been moved, and the entry is on the stack. -/
def Machine.Enters (code : Array Instruction) (entry : Int32) (m : Machine) : Prop :=
  ∃ n : Nat, m.pc = Int64.ofNat (n + 2) ∧ code[n]? = some ⟨.pop, some Register.base, none⟩ ∧
    code[n + 1]? = some ⟨.const, some entry, none⟩ ∧ code[n + 2]? = some ⟨.pop, some Register.pc, none⟩

/-- The number of words that a call puts on the stack besides the arguments: the variables, and the frame
of the callee. -/
def Site.window (site : Site) : Nat :=
  site.function.vars.length + frameWords

namespace Scene

variable {s : Scene} {w : Watch} {n words : Nat} {front block back : List Instr} {callee : Callee}
  {call : CallPoint} {offset : Int}

/-- Where the code of a call goes to its callee. -/
theorem enters_of_stands {entry : Label} {m : Machine}
    (stands : Stands s.all front (Code.enter offset entry ++ back))
    (pc : m.pc = Int64.ofNat (room front + 5)) :
    m.Enters s.code (s.address entry) := by
  have listed : Stands s.all front (.imm .push Register.base :: .imm .const (Int32.ofInt offset) ::
      .plain .add :: .imm .pop Register.base :: .constant (.label entry) :: .imm .pop Register.pc :: back) :=
    stands
  -- The fourth, the fifth and the sixth instruction, behind what is in front of each.
  have third := listed.tail.tail.tail
  obtain ⟨_, base_split⟩ := third.split
  obtain ⟨_, entry_split⟩ := third.tail.split
  obtain ⟨_, jump_split⟩ := third.tail.tail.split
  have pops_base := s.laid.fetch base_split rfl
  have pushes_entry := s.laid.fetch entry_split rfl
  have jumps := s.laid.fetch jump_split rfl
  simp only [Layout.room_append] at pops_base pushes_entry jumps
  exact ⟨room front + 3, pc, pops_base, pushes_entry, jumps⟩

/-- Callees may be entered with a base that is allowed above what lies below their arguments: the base that
is saved, the address to come back to, and the rest. They come back to this address above the rest, if they
come back at all, with the base that is saved. -/
def Answers (s : Scene) (w : Watch) (table : FunctionTable) (n : Nat) : Prop :=
  ∀ ⦃name : String⦄ ⦃callee : Callee⦄ ⦃args rest : List Int64⦄ ⦃m : Machine⦄ ⦃base saved ret : Int64⦄
    ⦃cells : Cells⦄, table.find? name = some callee → args.length = callee.params →
    w.link name base (saved :: ret :: rest) → w.Calm ret →
    m.Shows s.grid (s.address callee.entry).toInt64 (ret :: rest) ⟨base, args ++ [saved], cells⟩ →
    w.inv m ∧ Until s.code w.inv
      (fun m' => w.escape m' ∨ ∃ after, m'.Shows s.grid ret rest ⟨saved, [], after⟩) n m

/-- A function that is under way with a base above a floor may make a call: with the base that the callee
gets, above the variables that are saved and the words that were there before, it may be under way, or the
call is one to leave out. -/
def Permits (s : Scene) (w : Watch) (site : Site) (base : Int64) (floor : List Int64) (call : CallPoint) :
    Prop :=
  ∀ ⦃callee : Callee⦄ ⦃vars operands : List Int64⦄ ⦃m : Machine⦄, site.table.find? call.name = some callee →
    vars.length = site.function.vars.length → operands.length = call.words →
    m.Enters s.code (s.address callee.entry) → w.escape m ∨
      w.link call.name (wrap (base + (Int32.ofInt (call.words + call.excess + site.window)).toInt64))
        (base :: (s.address call.resume).toInt64 :: (vars ++ (operands ++ floor)))

/-- A function under way, which may go on for one step more than its callees. -/
structure Activation (s : Scene) (w : Watch) (n : Nat) where
  site : Site
  base : Int64
  /-- What lies on the stack below the words of the function. -/
  floor : List Int64
  few : site.function.vars.length ≤ maxVariables
  answers : s.Answers w site.table n
  leaves : s.Admits w floor base (s.address site.exit).toInt64 0

namespace Activation

variable (a : s.Activation w n)

/-- The way from the arguments to the callee and back. -/
theorem enter_until {args vars operands : List Int64} {cells : Cells} {m : Machine}
    (found : a.site.table.find? call.name = some callee)
    (permits : s.Permits w a.site a.base a.floor call) (arity : args.length = callee.params)
    (balance : offset = call.words + call.excess + a.site.window)
    (saved : vars.length = a.site.function.vars.length) (count : operands.length = call.words)
    (calm : w.Calm (s.address call.resume).toInt64)
    (clear : s.Clear w front (Code.enter offset callee.entry ++ back))
    (shows : m.Shows s.grid (place front) ((s.address call.resume).toInt64 :: (vars ++ (operands ++ a.floor)))
      ⟨a.base, args ++ [a.base], cells⟩) :
    Until s.code w.inv (fun m' => w.escape m' ∨ ∃ after, m'.Shows s.grid (s.address call.resume).toInt64
      (vars ++ (operands ++ a.floor)) ⟨a.base, [], after⟩) (n + 1) m := by
  have parts : s.Clear w front (([.imm .push Register.base, .imm .const (Int32.ofInt offset), .plain .add,
      .imm .pop Register.base] ++ [.constant (.label callee.entry)]) ++
        (.imm .pop Register.pc :: back)) := clear
  have run := View.run_append (s.run_enter _ a.base (Int32.ofInt offset) (args ++ [a.base]) cells rfl)
    [.constant (.label callee.entry)]
  refine Until.through s.laid parts.left.stands parts.left.free shows run fun m₁ shows₁ => ?_
  have enters : m₁.Enters s.code (s.address callee.entry) := by
    refine enters_of_stands clear.stands ?_
    rw [shows₁.pc_eq, place, Layout.room_append]
    rfl
  rcases permits found saved count enters with escapes | link
  · exact .reached (.inl escapes)
  · -- The step into the callee is the one that is counted.
    obtain ⟨m₂, advances, shows₂⟩ := Machine.advance_of_popPc s.laid parts.right.stands shows₁ rfl
    rw [← balance] at link
    obtain ⟨kept, comes_back⟩ := a.answers found arity link calm shows₂
    exact Until.advance advances kept comes_back

/-- The second half of a call. The arguments lie above what the first half has saved, and behind the call
nothing is left above the words that were there before. -/
theorem callee_until {args operands : List Int64} {contents : Nat → Int64}
    {before cells : Cells} {m : Machine} (found : a.site.table.find? call.name = some callee)
    (permits : s.Permits w a.site a.base a.floor call) (arity : args.length = callee.params)
    (balance : offset = call.words + call.excess + a.site.window) (count : operands.length = call.words)
    (known : ∀ i < 5, before.vars i = some (contents i))
    (clear : s.Clear w front
      (Code.enter offset callee.entry ++ ([Instr.marker call.resume] ++ Code.restore a.site)))
    (shows : m.Shows s.grid (place front)
      (s.saved a.site call.resume a.base contents ++ (operands ++ a.floor)) ⟨a.base, args, cells⟩) :
    Until s.code w.inv (fun m' => w.escape m' ∨
      s.At a.base (place (front ++ (Code.enter offset callee.entry ++ ([Instr.marker call.resume] ++
        Code.restore a.site)))) 0 (operands ++ a.floor) m') (n + 1) m := by
  have behind := clear.behind (by rw [Code.room_enter]; omega)
  have back : (s.address call.resume).toInt64
      = place (front ++ Code.enter offset callee.entry ++ [Instr.marker call.resume]) :=
    (address_eq behind.stands).trans (place_marker call.resume).symm
  -- The callee has the base and all above it in its frame.
  have lowered : m.Shows s.grid (place front) ((s.address call.resume).toInt64 ::
        ((List.range a.site.function.vars.length).map contents ++ (operands ++ a.floor)))
      ⟨a.base, args ++ [a.base], cells⟩ :=
    shows.reframe (by unfold saved; simp)
  have width : ((List.range a.site.function.vars.length).map contents).length
      = a.site.function.vars.length := by
    rw [List.length_map, List.length_range]
  have comes_back := a.enter_until found permits arity balance width count behind.calm_label clear lowered
  refine comes_back.bind ?_
  rintro m₁ (escapes | ⟨after, shows₁⟩)
  · exact .reached (.inl escapes)
  -- The variables are restored.
  rw [back] at shows₁
  have raised : m₁.Shows s.grid
      (place (front ++ Code.enter offset callee.entry ++ [.marker call.resume])) (operands ++ a.floor)
      ⟨a.base, (List.range a.site.function.vars.length).map contents, after⟩ := shows₁.reframe rfl
  have last := behind.toClear.right
  refine Until.through s.laid last.stands last.free raised (s.run_restore a.few known) fun m₂ shows₂ => ?_
  simp only [List.append_assoc] at shows₂
  exact .reached (.inr ⟨[], _, rfl, shows₂⟩)

/-- A whole call, when its arguments keep to their frame above what the call saves. -/
theorem call_leads {depth : Int} {next excess : Nat} {name : String} {args : List Expr}
    {operands : List Int64} (found : a.site.table.find? name = some callee)
    (permits : s.Permits w a.site a.base a.floor ⟨name, words, excess, ⟨next⟩⟩)
    (count : operands.length = words) (balance : depth = words + excess)
    (code : CallCode a.site depth next callee args block) (clear : s.Clear w front block)
    (values : ∀ {depth' : Int} {operands' : List Int64} {front' block' : List Instr},
      operands'.length = words + a.site.window → depth' = ((words + a.site.window : Nat) : Int) + excess →
      ExprsCode a.site depth' (next + 1) args block' → s.Clear w front' block' →
      s.Leads w (n + 1) (operands' ++ a.floor) a.base (place front') 0 (· = place (front' ++ block'))
        args.length) :
    s.Leads w (n + 1) (operands ++ a.floor) a.base (place front) 0 (· = place (front ++ block)) 0 := by
  obtain @⟨_, _, _, _, inner, arity, arguments⟩ := code
  have counted : depth + a.site.function.vars.length + frameWords
      = ((words + a.site.window : Nat) : Int) + excess := by
    unfold Site.window
    omega
  rintro m ⟨stack, cells, empty, shows⟩
  obtain rfl := List.length_eq_zero_iff.1 empty
  obtain ⟨contents, known⟩ := shows.known.values
  -- The variables are saved, and the arguments lie above them.
  refine Until.through s.laid clear.left.stands clear.left.free shows (s.run_save a.few known)
    fun m₁ shows₁ => ?_
  have raised : m₁.Shows s.grid (place (front ++ Code.save a.site ⟨next⟩))
      (s.saved a.site ⟨next⟩ a.base contents ++ operands ++ a.floor) ⟨a.base, [], cells⟩ :=
    shows₁.reframe (List.append_assoc _ _ _).symm
  have high : (s.saved a.site ⟨next⟩ a.base contents ++ operands).length = words + a.site.window := by
    unfold saved Site.window frameWords
    simp only [List.length_append, List.length_cons, List.length_map, List.length_range, count]
    omega
  have evaluated := values high counted arguments clear.right.left ⟨[], cells, rfl, raised⟩
  refine evaluated.bind ?_
  rintro m₂ (escapes | ⟨_, rfl, words₂, cells₂, count₂, shows₂⟩)
  · exact .reached (.inl escapes)
  rw [List.append_assoc (s.saved _ _ _ _)] at shows₂
  have called := a.callee_until found permits (count₂.trans arity) (by dsimp only; omega) count known
    clear.right.right shows₂
  refine called.bind ?_
  rintro m₃ (escapes | at_end)
  · exact .reached (.inl escapes)
  · simp only [List.append_assoc] at at_end
    exact .reached (.inr ⟨_, rfl, at_end⟩)

end Activation

end Scene

end GridStack
