import GridStack.Proofs.Frames.Stmt
import GridStack.Proofs.Linked

/-!
# Functions keep to their frame

When what is watched fits the code (`Scene.Guards`), every function that is entered with a base and above
words that `link` allows comes back as its caller expects, if it comes back at all, and what is watched
holds all the way (`function_answers`). This is by induction on the number of steps: the body is run on the
assumption that callees behave for one step less, the step that enters them.

`Linked.watched` is the same of a whole run. There `main` has no caller, and the run comes to its end by
the jump at the end of `main`, whoever has called it.
-/

namespace GridStack

namespace Scene

open Machine (Until place)
open Layout (Stands room)

variable {s : Scene} {w : Watch} {n : Nat} {floor : List Int64} {base : Int64} {functions : List CheckedFunction}
  {table : FunctionTable} {fuse : Bool} {name : String} {callee : Callee}

/-- What the code of a function is generated with. -/
def Holding.site (h : s.Holding functions table fuse name callee) : Site :=
  ⟨h.f, table, fuse, ⟨h.exit⟩⟩

/-- The code of a function fits what is watched. -/
structure Fits (s : Scene) (w : Watch) {functions : List CheckedFunction} {table : FunctionTable}
    {fuse : Bool} {name : String} {callee : Callee} (h : s.Holding functions table fuse name callee) :
    Prop where
  /-- Nothing is watched between the entry of the function and the end of its code. -/
  inside : ∀ ⦃p : Nat⦄, room h.front < p → p < room (h.front ++ h.block) → w.Calm (Int64.ofNat p)
  /-- When the function may be under way, it may make the calls in its body. -/
  calls : ∀ ⦃base : Int64⦄ ⦃floor : List Int64⦄, w.link name base floor →
    ∀ call ∈ Stmt.pointsOfAll h.site.window (h.exit + 1) h.f.body, s.Permits w h.site base floor call

/-- The code of all functions fits what is watched. -/
structure Guards (s : Scene) (w : Watch) (functions : List CheckedFunction) (table : FunctionTable)
    (fuse : Bool) : Prop where
  bodies : ∀ ⦃name : String⦄ ⦃callee : Callee⦄, table.find? name = some callee →
    ∃ h : s.Holding functions table fuse name callee, s.Fits w h
  /-- A function that may be under way may be entered. -/
  enter : ∀ ⦃name : String⦄ ⦃callee : Callee⦄ ⦃base : Int64⦄ ⦃floor : List Int64⦄,
    table.find? name = some callee → w.link name base floor →
      s.Admits w floor base (s.address callee.entry).toInt64 callee.params
  /-- The machine may stop where `main` ends. -/
  halts : ∀ ⦃base : Int64⦄ ⦃floor : List Int64⦄, w.link mainName base floor →
    s.Admits w floor base halt.toInt64 0

/-- A function from its entry to the end of its body. -/
theorem body_leads {site : Site} {entry : Label} {next : Nat} {front body : List Instr}
    (few : site.function.vars.length ≤ maxVariables)
    (params_le : site.function.params ≤ site.function.vars.length) (answers : s.Answers w site.table n)
    (enter : s.Admits w floor base (s.address entry).toInt64 site.function.params)
    (permits : ∀ call ∈ Stmt.pointsOfAll site.window next site.function.body,
      s.Permits w site base floor call)
    (code : StmtsCode site 0 next site.function.body body)
    (clear : s.Clear w front
      ([Instr.marker entry] ++ (Code.take site ++ (body ++ [Instr.marker site.exit])))) :
    s.Leads w (n + 1) floor base (s.address entry).toInt64 site.function.params
      (· = place (front ++ [Instr.marker entry] ++ Code.take site ++ body ++
        [Instr.marker site.exit])) 0 := by
  have at_entry : (s.address entry).toInt64 = place (front ++ [Instr.marker entry]) :=
    (address_eq clear.stands.left).trans (place_marker entry).symm
  have ground : s.Ground w floor base (front ++ [Instr.marker entry] ++ Code.take site)
      (body ++ [Instr.marker site.exit]) := by
    rcases Nat.eq_zero_or_pos site.function.params with no_params | some_params
    · -- Without arguments the body begins at the entry.
      refine ⟨clear.right.right, ?_⟩
      rw [at_entry, no_params] at enter
      unfold place at enter ⊢
      rwa [Layout.room_append _ (Code.take site), Code.room_take, no_params]
    · exact (clear.right.behind (by rwa [Code.room_take])).ground
  have at_exit : (s.address site.exit).toInt64
      = place (front ++ [Instr.marker entry] ++ Code.take site ++ body ++ [Instr.marker site.exit]) :=
    (address_eq ground.right.stands).trans (place_marker site.exit).symm
  have leaves : s.Admits w floor base (s.address site.exit).toInt64 0 := by
    rw [address_eq ground.right.stands]
    exact ground.right.admits
  have takes : s.Leads w (n + 1) floor base (place (front ++ [Instr.marker entry])) site.function.params
      (· = place (front ++ [Instr.marker entry] ++ Code.take site)) 0 := by
    refine Leads.of_block clear.right.left fun stack cells arity _ => ?_
    have run := s.run_take few params_le (List.length_reverse.trans arity) base cells
    rw [List.reverse_reverse] at run
    exact ⟨[], _, rfl, run⟩
  let a : s.Activation w n := ⟨site, base, floor, few, answers, leaves⟩
  rw [at_entry]
  refine takes.andThen ((a.stmts_lead _ permits code ground.left).widen ?_)
  rintro _ (rfl | rfl)
  · exact (place_marker site.exit).symm
  · exact at_exit

/-- A function that may be under way, from its entry to its end. -/
theorem function_leads {h : s.Holding functions table fuse name callee} (fits : s.Fits w h)
    (link : w.link name base floor)
    (enter : s.Admits w floor base (s.address callee.entry).toInt64 callee.params)
    (answers : s.Answers w table n) :
    ∃ P, Stands s.all P (Code.leave h.site) ∧ w.Calm (Int64.ofNat (room P + 1)) ∧
      s.Leads w (n + 1) floor base (s.address callee.entry).toInt64 callee.params (· = place P) 0 := by
  have inside := fits.inside
  have permits := fits.calls link
  rw [← h.params_eq] at enter ⊢
  obtain ⟨f, exit, front, block, name_eq, known, few, params_eq, params_le, ⟨code⟩, stands⟩ := h
  dsimp only [Holding.site] at inside permits enter ⊢
  simp only [Layout.room_append, Code.room_leave] at inside
  refine ⟨_, stands.right.right.right.right, ?_, ?_⟩
  · refine inside ?_ ?_ <;> simp only [Layout.room_append] <;> omega
  · refine body_leads few params_le answers enter permits code ⟨?_, fun p after before => inside after ?_⟩
    · simp only [← List.append_assoc] at stands ⊢
      exact stands.left
    · simp only [Layout.room_append] at before
      omega

/-- Behind its body `main` comes to `halt`. -/
theorem halt_until {site : Site} {goal : Machine → Prop} {front : List Instr} {m : Machine}
    (main : site.function.isMain = true) (stands : Stands s.all front (Code.leave site))
    (calm : w.Calm (Int64.ofNat (room front + 1))) (admits : s.Admits w floor base halt.toInt64 0)
    (at_end : s.At base (place front) 0 floor m) : Until s.code w.inv goal n m := by
  obtain ⟨stack, cells, empty, shows⟩ := at_end
  unfold Code.leave at stands
  rw [if_pos main, ← List.append_nil (Code.jump _)] at stands
  refine (Until.jump s.laid stands calm shows fun m' shows' => ?_).mono (Nat.le_succ n)
  have stopped : m'.advance? s.code = none :=
    Machine.advance?_of_halted (Machine.halted_of_halt shows'.pc_eq)
  exact ⟨admits ⟨stack, cells, empty, shows'⟩, Until.stopped stopped⟩

/-- Behind its body any other function comes back to its caller. -/
theorem return_until {site : Site} {front : List Instr} {rest : List Int64} {saved ret : Int64}
    {m : Machine} (other : site.function.isMain = false) (stands : Stands s.all front (Code.leave site))
    (before_last : w.Calm (Int64.ofNat (room front + 1))) (calm : w.Calm ret)
    (at_end : s.At base (place front) 0 ([saved] ++ ret :: rest) m) :
    Until s.code w.inv (fun m' => w.escape m' ∨ ∃ after, m'.Shows s.grid ret rest ⟨saved, [], after⟩) n
      m := by
  obtain ⟨stack, cells, empty, shows⟩ := at_end
  obtain rfl := List.length_eq_zero_iff.1 empty
  unfold Code.leave at stands
  rw [other] at stands
  have raised : m.Shows s.grid (place front) (ret :: rest) ⟨base, [saved], cells⟩ := shows.reframe rfl
  -- The caller's base is restored, and the address to come back to is on top.
  obtain ⟨m₁, advances, shows₁⟩ := Machine.advance_of_exec s.laid stands rfl raised rfl
  have kept : w.inv m₁ := by
    refine before_last m₁ (shows₁.pc_eq.trans ?_)
    rw [place, Machine.room_append_kept front rfl]
  have lowered : m₁.Shows s.grid (place (front ++ [.imm .pop Register.base])) rest ⟨saved, [ret], cells⟩ :=
    shows₁.reframe rfl
  obtain ⟨m₂, back, shows₂⟩ := Machine.advance_of_popPc s.laid stands.tail lowered rfl
  refine Until.step advances kept (Until.step back (calm m₂ shows₂.pc_eq) ?_)
  exact .reached (.inr ⟨cells, shows₂⟩)

/-- Every function behaves as its callers expect. -/
theorem function_answers (guards : s.Guards w functions table fuse) (n : Nat) : s.Answers w table n := by
  induction n with
  | zero =>
    intro name callee args rest m base saved ret cells found arity link calm shows
    have lowered := shows.reframe (List.append_assoc args [saved] (ret :: rest))
    exact ⟨guards.enter found link ⟨args, cells, arity, lowered⟩, trivial⟩
  | succ n ih =>
    intro name callee args rest m base saved ret cells found arity link calm shows
    have lowered := shows.reframe (List.append_assoc args [saved] (ret :: rest))
    have at_entry : s.At base (s.address callee.entry).toInt64 callee.params ([saved] ++ ret :: rest) m :=
      ⟨args, cells, arity, lowered⟩
    obtain ⟨h, fits⟩ := guards.bodies found
    have enter := guards.enter found link
    -- What the function calls comes back for `n` steps, and so does its body for one step more.
    obtain ⟨P, stands, before_last, leads⟩ := function_leads fits link enter ih
    refine ⟨enter at_entry, (leads at_entry).bind ?_⟩
    rintro m₁ (escapes | ⟨_, rfl, at_end⟩)
    · exact .reached (.inl escapes)
    cases main : h.f.isMain with
    | true =>
      rw [← h.name_eq, CheckedFunction.isMain_iff.1 main] at link
      exact halt_until main stands before_last (guards.halts link) at_end
    | false => exact return_until main stands before_last calm at_end

/-- A run of `main`, started at its entry. -/
theorem main_until (guards : s.Guards w functions table fuse)
    (found : table.find? mainName = some callee) (link : w.link mainName base floor) {m : Machine}
    (at_entry : s.At base (s.address callee.entry).toInt64 callee.params floor m) (n : Nat) :
    Until s.code w.inv w.escape n m := by
  obtain ⟨h, fits⟩ := guards.bodies found
  have main : h.f.isMain = true := CheckedFunction.isMain_iff.2 h.name_eq
  obtain ⟨P, stands, before_last, leads⟩ :=
    function_leads fits link (guards.enter found link) (function_answers guards n)
  refine ((leads at_entry).mono (Nat.le_succ n)).bind ?_
  rintro m₁ (escapes | ⟨_, rfl, at_end⟩)
  · exact .reached escapes
  · exact halt_until main stands before_last (guards.halts link) at_end

end Scene

namespace Program

open Machine (Path loaded)

/-- What is watched holds on every run of a linked program, up to the first machine to leave out. -/
theorem Linked.watched {program : Program} {options : Options} {image : Image}
    (l : Linked program options image) {grid : Grid} {w : Watch}
    (guards : (l.scene grid).Guards w l.functions l.table options.fuse) (link : w.link mainName 0 [])
    {k : Nat} {m : Machine} (path : Path image.code.toArray (fun _ => True) k (loaded grid) m) :
    w.inv m ∨ ∃ j m', Path image.code.toArray (fun _ => True) j (loaded grid) m' ∧ w.escape m' := by
  obtain ⟨callee, found, no_params, at_start⟩ := l.main grid
  have at_entry : (l.scene grid).At 0 ((l.scene grid).address callee.entry).toInt64 callee.params []
      (loaded grid) := by
    rw [at_start, no_params]
    exact ⟨[], _, rfl, Machine.loaded_shows grid⟩
  exact Machine.Until.inv_or (guards.enter found link at_entry)
    (Scene.main_until guards found link at_entry) path

end Program

end GridStack
