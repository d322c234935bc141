import GridStack.Proofs.Draft.Code
import GridStack.Proofs.Machine.Block

/-!
# Code that does what an evaluation says

`Machine.Realizes` compares a machine with the outcome of an evaluation on registers. If the evaluation
has a value, a path leads to a machine that satisfies a condition on it; if it has come to the end of
`main`, one leads to a machine that has stopped; and if its fuel is used up, the machine has made at least
as many steps as there was fuel. It never is stuck. On the way the machines satisfy an invariant, which
is mostly that the stack below is kept (`Machine.Keeps`).

`Scene.Runs` says this of code at its place, whatever the machine was in front of it: values are taken
from the stack, the evaluation is done and its values are left there. Code behind other code is
`Runs.bind`, and `Runs.frame` is that values further below stay where they are. Then there is one lemma
for each kind of code that generation makes: a block without jumps, a jump, and a conditional one.
-/

namespace GridStack

/-- Every register has a content. -/
def Cells.Known (cells : Cells) : Prop :=
  (∀ i < 5, ∃ x, cells.vars i = some x) ∧ ∃ x, cells.scratch = some x

namespace Machine

/-- A machine does what an evaluation came to. -/
def Realizes {α : Type} (code : Array Instruction) (inv : Machine → Prop) (fuel : Nat) (m : Machine) :
    Lowered.Outcome α → (α → Cells → Machine → Prop) → Prop
  | .value result cells, post => ∃ k m', Path code inv k m m' ∧ post result cells m'
  | .stop .halted log, _ => ∃ k m', Path code inv k m m' ∧ m'.pc = halt.toInt64 ∧ m'.log = log
  | .stop .timeout log, _ => ∃ k m', fuel ≤ k ∧ Path code inv k m m' ∧ m'.log = log
  | .stop .stuck _, _ => False

/-- The stack of a machine goes on below. -/
def Keeps (floor : List Int64) (m : Machine) : Prop :=
  floor <:+ m.stack.values

/-- A machine that shows a view has a content in every register. -/
theorem Shows.known {m : Machine} {grid : Grid} {pc : Int64} {floor : List Int64} {v : View}
    (h : m.Shows grid pc floor v) : v.cells.Known :=
  ⟨fun i hi => ⟨_, h.vars_eq i hi⟩, _, h.scratch_eq⟩

namespace Realizes

variable {α β : Type} {code : Array Instruction} {inv inv' : Machine → Prop} {fuel fuel' k : Nat}
  {m m' : Machine} {outcome : Lowered.Outcome α} {post post' : α → Cells → Machine → Prop}

/-- Less fuel, a weaker invariant and a weaker condition at the end. -/
theorem mono (h : Realizes code inv fuel m outcome post) (hfuel : fuel' ≤ fuel)
    (hinv : ∀ m, inv m → inv' m) (hpost : ∀ result cells m', post result cells m' → post' result cells m') :
    Realizes code inv' fuel' m outcome post' := by
  rcases outcome with ⟨result, cells⟩ | ⟨_ | _ | _, log⟩
  · obtain ⟨k, m', path, at_end⟩ := h
    exact ⟨k, m', path.mono hinv, hpost _ _ _ at_end⟩
  · obtain ⟨k, m', path, at_end⟩ := h
    exact ⟨k, m', path.mono hinv, at_end⟩
  · exact h
  · obtain ⟨k, m', enough, path, at_end⟩ := h
    exact ⟨k, m', Nat.le_trans hfuel enough, path.mono hinv, at_end⟩

/-- Nothing is done for a value that is there. -/
theorem value {result : α} {cells : Cells} (h : inv m) (at_end : post result cells m) :
    Realizes code inv fuel m (.value result cells) post :=
  ⟨0, m, .here h, at_end⟩

/-- Steps that are made first count as fuel. -/
theorem after (path : Path code inv k m m') (h : Realizes code inv fuel m' outcome post) :
    Realizes code inv (k + fuel) m outcome post := by
  rcases outcome with ⟨result, cells⟩ | ⟨_ | _ | _, log⟩
  · obtain ⟨l, m'', path', at_end⟩ := h
    exact ⟨k + l, m'', path.trans path', at_end⟩
  · obtain ⟨l, m'', path', at_end⟩ := h
    exact ⟨k + l, m'', path.trans path', at_end⟩
  · exact h
  · obtain ⟨l, m'', enough, path', at_end⟩ := h
    exact ⟨k + l, m'', Nat.add_le_add_left enough k, path.trans path', at_end⟩

/-- The invariant also holds at the end. -/
theorem with_inv (h : Realizes code inv fuel m outcome post) :
    Realizes code inv fuel m outcome fun result cells m' => inv m' ∧ post result cells m' := by
  rcases outcome with ⟨result, cells⟩ | ⟨_ | _ | _, log⟩
  · obtain ⟨k, m', path, at_end⟩ := h
    exact ⟨k, m', path, path.finish, at_end⟩
  · exact h
  · exact h
  · exact h

/-- One evaluation behind another, which may use that the first one has its value. -/
theorem bind {x : Lowered α} {f : α → Lowered β} {cells : Cells} {mid : α → Cells → Machine → Prop}
    {post : β → Cells → Machine → Prop} (h : Realizes code inv fuel m (x cells) mid)
    (next : ∀ result after m', x cells = .value result after → mid result after m' →
      Realizes code inv fuel m' (f result after) post) :
    Realizes code inv fuel m ((x >>= f) cells) post := by
  show Realizes code inv fuel m (Lowered.andThen x f cells) post
  unfold Lowered.andThen
  cases hx : x cells with
  | value result after =>
    rw [hx] at h
    obtain ⟨k, m', path, at_mid⟩ := h
    -- The steps up to here come on top of the fuel that the second evaluation has.
    exact (Realizes.after path (next result after m' hx at_mid)).mono (Nat.le_add_left fuel k)
      (fun _ h => h) fun _ _ _ h => h
  | stop reason log =>
    rw [hx] at h
    cases reason <;> exact h

end Realizes

end Machine

/-- Code at its place, and the cells that it reads. -/
structure Scene where
  all : List Instr
  code : Array Instruction
  address : Label → Int32
  grid : Grid
  laid : Layout.Laid all code address

namespace Scene

open Machine (Realizes Keeps place Path)
open Layout (Stands resolved)

/-- From an address on, the code takes values from the stack, does what an evaluation says and leaves
values in their place. -/
def Runs {α : Type} (s : Scene) (fuel : Nat) (pc : Int64) (takes : List Int64) (x : Lowered α)
    (next : α → Int64) (leaves : α → List Int64) : Prop :=
  ∀ ⦃m : Machine⦄ ⦃floor : List Int64⦄ ⦃base : Int64⦄ ⦃cells : Cells⦄,
    m.Shows s.grid pc floor ⟨base, takes, cells⟩ →
      Realizes s.code (Keeps floor) fuel m (x cells) fun result cells m' =>
        m'.Shows s.grid (next result) floor ⟨base, leaves result, cells⟩

variable {α β : Type} {s : Scene} {fuel fuel' : Nat} {pc : Int64} {takes : List Int64} {x : Lowered α}
  {f : α → Lowered β} {next : α → Int64} {next' : β → Int64} {leaves : α → List Int64}
  {leaves' : β → List Int64} {front block back : List Instr}

namespace Runs

/-- Less fuel. -/
theorem mono (h : s.Runs fuel pc takes x next leaves) (hfuel : fuel' ≤ fuel) :
    s.Runs fuel' pc takes x next leaves := fun _ _ _ _ shows =>
  (h shows).mono hfuel (fun _ h => h) fun _ _ _ h => h

/-- Code behind other code, for a value that the first evaluation can have. -/
theorem bind (h : s.Runs fuel pc takes x next leaves)
    (h' : ∀ result, x.Yields result →
      s.Runs fuel (next result) (leaves result) (f result) next' leaves') :
    s.Runs fuel pc takes (x >>= f) next' leaves' := fun _ _ _ _ shows =>
  (h shows).bind fun result _ _ yields shows => h' result ⟨_, _, yields⟩ shows

/-- The same code, with the address behind it in another form. -/
theorem cast {next' : α → Int64} (h : s.Runs fuel pc takes x next leaves)
    (eq : ∀ result, next result = next' result) : s.Runs fuel pc takes x next' leaves := by
  rwa [← funext eq]

/-- No code. -/
theorem pure {result : α} (at_end : next result = pc) (left : leaves result = takes) :
    s.Runs fuel pc takes (pure result) next leaves := fun _ _ _ _ shows =>
  .value shows.floor_suffix (by rwa [at_end, left])

/-- Code behind an evaluation that is at its end. -/
theorem behind {next' : α → Int64} {leaves' : α → List Int64} (h : s.Runs fuel pc takes x next leaves)
    (h' : ∀ result, s.Runs fuel (next result) (leaves result) (Pure.pure result) next' leaves') :
    s.Runs fuel pc takes x next' leaves' := by
  rw [← Lowered.bind_pure x]
  exact h.bind fun result _ => h' result

/-- Values further below stay where they are. -/
theorem frame (h : s.Runs fuel pc takes x next leaves) (rest : List Int64) :
    s.Runs fuel pc (takes ++ rest) x next fun result => leaves result ++ rest := by
  intro m floor base cells shows
  -- The values count as a part of what is below, which is arbitrary in `Runs`.
  have raised : m.Shows s.grid pc (rest ++ floor) ⟨base, takes, cells⟩ :=
    shows.reframe (List.append_assoc _ _ _)
  refine (h raised).mono (Nat.le_refl _) ?_ ?_
  · rintro m ⟨above, eq⟩
    exact ⟨above ++ rest, by rw [← eq, List.append_assoc]⟩
  · intro result cells m' shows
    exact shows.reframe (List.append_assoc _ _ _).symm

/-- A block of code without jumps. -/
theorem of_block (stands : Stands s.all front block)
    (h : ∀ (base : Int64) (cells : Cells), cells.Known → ∃ result cells', x cells = .value result cells' ∧
      View.run s.address s.grid block ⟨base, takes, cells⟩ = some ⟨base, leaves result, cells'⟩) :
    s.Runs fuel (place front) takes x (fun _ => place (front ++ block)) leaves := by
  intro m floor base cells shows
  obtain ⟨result, cells', eq, run⟩ := h base cells shows.known
  obtain ⟨last, path, shows⟩ := Machine.block_path s.laid stands shows run
  rw [eq]
  exact ⟨_, last, path.mono fun _ h => h.1, shows⟩

/-- A jump, and what is done where it leads. -/
theorem jump {target : Operand}
    (stands : Stands s.all front (Code.jump target ++ back))
    (h : s.Runs fuel (resolved s.address target).toInt64 takes x next leaves) :
    s.Runs (2 + fuel) (place front) takes x next leaves := by
  intro m floor base cells shows
  obtain ⟨last, path, shows⟩ := Machine.jump_path s.laid stands shows
  exact (h shows).after path

/-- A jump whose steps are not counted. -/
theorem goto {target : Operand} (stands : Stands s.all front (Code.jump target ++ back))
    (h : s.Runs fuel (resolved s.address target).toInt64 takes x next leaves) :
    s.Runs fuel (place front) takes x next leaves :=
  (jump stands h).mono (Nat.le_add_left fuel 2)

/-- A conditional jump, which leaves the address of its target in the scratch register. -/
theorem jumpIfZero {target : Label} {condition : Int64}
    (stands : Stands s.all front (Code.jumpIfZero target ++ back)) :
    s.Runs fuel (place front) [condition]
      (Lowered.writeScratch (some (s.address target).toInt64))
      (fun _ => if condition = 0 then (s.address target).toInt64
        else place (front ++ Code.jumpIfZero target))
      fun _ => [] := by
  intro m floor base cells shows
  have parts : Stands s.all front ([.constant (.label target), .imm .pop Register.scratch] ++
      (.imm .jumpIf Register.scratch :: back)) := stands
  -- The target goes into the scratch register, and the jump reads it there.
  obtain ⟨between, path, shows⟩ := Machine.block_path s.laid parts.left shows rfl
  obtain ⟨last, advances, shows'⟩ := Machine.advance_of_jumpIf s.laid parts.right shows rfl rfl
  rw [List.append_assoc] at shows'
  exact ⟨_, last, (path.mono fun _ h => h.1).trans
    (.single shows.floor_suffix advances shows'.floor_suffix), shows'⟩

end Runs

/-- A marker takes no room. -/
theorem place_marker (label : Label) : place (front ++ [.marker label]) = place front := by
  unfold place
  rw [Layout.room_append, Layout.room_cons_of_isMarker rfl]
  rfl

/-- The address of a label is that of the code behind its marker. -/
theorem address_eq {label : Label} (stands : Stands s.all front (.marker label :: back)) :
    (s.address label).toInt64 = place front := by
  obtain ⟨rest, split⟩ := stands.split
  exact s.laid.label split rfl

end Scene

end GridStack
