import Mathlib
import GridStack.Program.Build
import GridStack.Proofs.Frames.Function
import GridStack.Proofs.Frames.UnderWay
import GridStack.Proofs.Words

/-!
# The base of a frame

The base that a function is entered with should be the position of its first argument. It is too high by
one word for every `||` in whose right operand the call is, besides what the base of the caller is too high
by. So it is too high by the sum over the calls under way, and these can be read off the stack
(`Program.UnderWay`); `base_of_entry` is that this is so whenever a machine is at the entry of a function.
For a program without calls in such a place the base is right (`Program.Level`).

No compiled program reads the stack through the base, and so the difference does not show in what a
program writes.
-/

namespace GridStack

open Machine (Path loaded place)
open Layout (room)

namespace Program

/-- No call is in the right operand of `||`. -/
def Level (program : Program) : Prop :=
  ∀ decl ∈ program.functions, ∀ call ∈ Stmt.calleesOfAll decl.body, call.2 = 0

/-- Whether all calls of a program are level can be looked up. -/
instance (program : Program) : Decidable program.Level :=
  inferInstanceAs (Decidable (∀ decl ∈ program.functions, ∀ call ∈ Stmt.calleesOfAll decl.body, call.2 = 0))

/-- The function of a number is one of those that are declared, as it has passed the check. -/
theorem exists_of_lookup_numbered {program : Program} {name : String} {f : CheckedFunction} {exit : Nat}
    (h : program.numbered.lookup name = some (f, exit)) : ∃ decl ∈ program.functions, decl.checked = f :=
  List.mem_map.1 (mem_layoutOrder.1 (Lowered.of_lookup_numbered h).1)

/-- Without such calls the base is never too high. -/
theorem UnderWay.eq_zero {program : Program} {object : Object} {name : String} {floor : List Int64}
    {excess : Nat} (h : program.UnderWay object name floor excess) (level : program.Level) : excess = 0 := by
  induction h with
  | main => rfl
  | call _ code part _ _ _ _ ih =>
    obtain ⟨decl, declared, rfl⟩ := exists_of_lookup_numbered code
    have none_more := level decl declared _ (Stmt.mem_calleesOfAll _ part)
    dsimp only at none_more
    omega

/-- A base belongs to what lies on the stack below the words of a function. -/
def Based (program : Program) (object : Object) (name : String) (base : Int64) (floor : List Int64) : Prop :=
  ∃ excess, program.UnderWay object name floor excess ∧ base.toInt = (floor.length + excess) % 65536

namespace Linked

variable {program : Program} {options : Options} {image : Image} (l : Linked program options image)

/-- Bases are watched at the entries of functions. -/
def bases (grid : Grid) : Watch where
  inv m := ∀ name callee, l.table.find? name = some callee →
    m.pc = ((l.scene grid).address callee.entry).toInt64 →
      callee.params ≤ m.stack.values.length ∧
        program.Based l.object name m.base (m.stack.values.drop callee.params)
  escape _ := False
  link := program.Based l.object

/-- The place that the callee of a call comes back to. -/
theorem exists_resume {name : String} {f : CheckedFunction} {exit : Nat} {call : CallPoint}
    (code : program.numbered.lookup name = some (f, exit)) (part : call ∈ f.points exit) :
    ∃ position, l.object.position? call.resume = some position ∧
      (l.address call.resume).toInt64 = Int64.ofNat position := by
  obtain ⟨front, back, split⟩ := l.returns_of_mem_points code part
  have resume := l.position_of_split split
  have short : image.code.length < 2147483648 := l.short
  have le := l.position_le resume
  refine ⟨_, resume, Int64.toInt_inj.1 ?_⟩
  rw [Int32.toInt_toInt64, l.toInt_address resume, Int64.toInt_ofNat_of_lt (by omega)]

/-- A call that is made gives the callee a base that belongs to what it has put on the stack. -/
theorem bases_permits {grid : Grid} {site : Site} {name : String} {exit : Nat} {base : Int64}
    {floor : List Int64} (code : program.numbered.lookup name = some (site.function, exit))
    (based : program.Based l.object name base floor) :
    ∀ call ∈ site.function.points exit, (l.scene grid).Permits (l.bases grid) site base floor call := by
  obtain ⟨excess, caller, base_eq⟩ := based
  intro call part callee vars operands m _ saved count _
  obtain ⟨position, resume, address⟩ := l.exists_resume code part
  -- What the caller's base is too high by is added to what the count is too high by at the call.
  refine .inr ⟨excess + call.excess, ?_, ?_⟩
  · show program.UnderWay l.object call.name (base :: (l.address call.resume).toInt64 :: _) _
    rw [address]
    exact .call caller code part resume base_eq saved count
  · rw [Reference.toInt_wrap_add, base_eq]
    unfold Site.window frameWords
    simp only [List.length_cons, List.length_append, saved, count]
    omega

/-- The code of a program fits what is watched of bases. -/
theorem bases_guards (grid : Grid) :
    (l.scene grid).Guards (l.bases grid) l.functions l.table options.fuse := by
  constructor
  · intro name callee found
    obtain ⟨p⟩ := l.exists_placement grid found
    refine ⟨p.toHolding, ?_, ?_⟩
    · intro position after before m pc name' callee' found' entry
      -- Only the function itself is entered here, and that is at the first position.
      obtain rfl := name_eq_of_inside p found found' (entry.symm.trans pc) (Nat.le_of_lt after) before
      obtain rfl := Option.some.inj (found.symm.trans found')
      have first := p.room_eq (entry.symm.trans pc) (Nat.lt_trans before (room_lt p.stands))
      omega
    · intro base floor based
      have code : program.numbered.lookup name = some (p.site.function, p.exit) := l.numbered_eq ▸ p.known
      exact l.bases_permits code based
  · rintro name callee base floor found based m ⟨stack, cells, words, shows⟩ name' callee' found' entry
    obtain ⟨p⟩ := l.exists_placement grid found
    have inside : room p.front < room (p.front ++ p.block) := by
      have some_room := p.code.some_room
      rw [Layout.room_append]
      omega
    have same_entry := (entry.symm.trans shows.pc_eq).trans p.address_eq
    obtain rfl := name_eq_of_inside p found found' same_entry (Nat.le_refl _) inside
    obtain rfl := Option.some.inj (found.symm.trans found')
    rw [shows.stack_eq, List.length_append, ← words, List.drop_left, shows.base_eq]
    exact ⟨Nat.le_add_right _ _, based⟩
  · rintro base floor - m ⟨stack, cells, -, shows⟩ name callee found entry
    exact absurd (entry.symm.trans shows.pc_eq) (address_ne_halt grid found)

end Linked

/-- Whenever a machine that runs a linked program is at the entry of a function, the arguments are on the
stack, and the stack below them tells the calls under way. The base is the position of the first argument, or
higher by the words that the count was too high by at these calls. -/
theorem base_of_entry {program : Program} {options : Options} {image : Image}
    (links : program.link options = .ok image) (short : image.Addressable) {grid : Grid} {k : Nat}
    {m : Machine} (path : Path image.code.toArray (fun _ => True) k (loaded grid) m) {decl : FunctionDecl}
    (declared : decl ∈ program.functions) {symbol : Symbol} (listed : symbol ∈ image.symbols)
    (named : symbol.name = decl.name) (at_entry : m.pc = Int64.ofNat symbol.entry.toNat) :
    decl.params.length ≤ m.stack.height ∧
      (∃ object excess, program.compile options = .ok object ∧
        (∀ more, program.UnderWay object decl.name (m.stack.values.drop decl.params.length) more ↔
          more = excess) ∧
        m.base.toInt = (m.stack.height - decl.params.length + excess) % 65536) ∧
      (program.Level → m.base.toInt = (m.stack.height - decl.params.length) % 65536) := by
  obtain ⟨l⟩ := link_ok links short
  obtain ⟨callee, found, params⟩ := l.exists_callee declared
  have entry : m.pc = ((l.scene grid).address callee.entry).toInt64 :=
    at_entry.trans (l.symbol_entry grid found listed named).symm
  have start : program.Based l.object mainName 0 [] := ⟨0, .main, rfl⟩
  have watched := l.watched (l.bases_guards grid) start path
  obtain ⟨arguments, excess, under, base_eq⟩ :=
    watched.resolve_right (fun ⟨_, _, _, never⟩ => never) decl.name callee found entry
  rw [params] at arguments under base_eq
  rw [List.length_drop, Nat.cast_sub arguments] at base_eq
  rw [m.stack.height_eq]
  refine ⟨arguments, ⟨l.object, excess, l.compile_eq, fun more => ⟨fun other => ?_, ?_⟩, base_eq⟩,
    fun level => ?_⟩
  · exact other.unique l under
  · rintro rfl
    exact under
  · rw [base_eq, under.eq_zero level, Nat.cast_zero, add_zero]

/-- `void main() { output(0, 0, 1 + next(next(2))); }` and `int next(int x) { return x + 1; }`. -/
def sums : Program :=
  ⟨[.procedure "main" [] [.apply "output" [.int 0, .int 0,
      .binary .add (.int 1) (.apply "next" [.apply "next" [.int 2]])]],
    .function "next" ["x"] [.give (.binary .add (.var "x") (.int 1))]]⟩

/-- The second call of the sample: its argument is at position 5 and the base is 5. -/
theorem base_of_entry_sums : ∃ image m, sums.link {} = .ok image ∧ image.Addressable ∧
    Path image.code.toArray (fun _ => True) 30 (loaded []) m ∧
    m.stack.height = 6 ∧ sums.Level ∧ m.base.toInt = 5 := by
  obtain ⟨image, links, short, listed, reached⟩ : ∃ image, sums.link {} = .ok image ∧ image.Addressable ∧
      ⟨"next", 27⟩ ∈ image.symbols ∧
      ((loaded []).stepped? image.code.toArray 30).map (fun m => (m.pc, m.stack.height)) =
        some (27, 6) :=
    ⟨⟨_, _⟩, by cbv, by decide, by decide, by decide +kernel⟩
  obtain ⟨m, steps, at_entry⟩ := Option.map_eq_some_iff.1 reached
  obtain ⟨pc, height⟩ := Prod.mk.inj at_entry
  have level : sums.Level := by decide
  have path := Machine.path_iff.2 steps
  have declared : sums.functions[1] ∈ sums.functions := List.getElem_mem _
  have base := (base_of_entry links short path declared listed rfl pc).2.2 level
  rw [height] at base
  exact ⟨image, m, links, short, path, height, level, base⟩

/-- `void main() { int a = 0 || f(); }` and `int f() { return 1; }`. -/
def disjunction : Program :=
  ⟨[.procedure "main" [] [.declareInt "a" (.binary .or (.int 0) (.apply "f" []))],
    .function "f" [] [.give (.int 1)]]⟩

/-- A function without parameters that is called in the right operand of `||` is entered with a base that
is above the stack. -/
theorem base_above_stack : ∃ image m, disjunction.link {} = .ok image ∧
    Path image.code.toArray (fun _ => True) 13 (loaded []) m ∧
    ⟨"f", 21⟩ ∈ image.symbols ∧ m.pc = 21 ∧ m.stack.height = 3 ∧ m.base = 4 ∧
    m.base.toInt ≠ m.stack.height % 65536 := by
  obtain ⟨image, links, listed, reached⟩ : ∃ image, disjunction.link {} = .ok image ∧
      ⟨"f", 21⟩ ∈ image.symbols ∧
      ((loaded []).stepped? image.code.toArray 13).map (fun m => (m.pc, m.stack.height, m.base)) =
        some (21, 3, 4) :=
    ⟨⟨_, _⟩, by cbv, by decide, by decide +kernel⟩
  obtain ⟨m, steps, at_entry⟩ := Option.map_eq_some_iff.1 reached
  simp only [Prod.mk.injEq] at at_entry
  obtain ⟨pc, height, base⟩ := at_entry
  refine ⟨image, m, links, Machine.path_iff.2 steps, listed, pc, height, base, ?_⟩
  rw [base, height]
  decide

end Program

end GridStack
