import GridStack.Proofs.Draft.Code
import GridStack.Proofs.Machine.Block

/-!
# What holds until a goal is reached

`Until code inv goal n m` says that from `m` on, for `n` steps, every next machine satisfies `inv`, as
long as no machine has reached the goal. Nothing is said of whether a goal is reached at all, so that
this can be shown of code that may run for ever; the number of steps is what such a proof is by induction
on. What holds for every number of steps holds on every path (`Until.inv_or`).

The rules are those of code without jumps and of a jump, for machines that show a view, as in `block_path`.
There `inv` is only asked of what comes behind the first machine: that one has been reached before.
-/

namespace GridStack

namespace Machine

open Layout (Laid Stands room resolve)

/-- For a number of steps every next machine satisfies a condition, unless a goal has been reached. -/
def Until (code : Array Instruction) (inv goal : Machine → Prop) : Nat → Machine → Prop
  | 0, _ => True
  | n + 1, m => goal m ∨ ∀ next, m.advance? code = some next → inv next ∧ Until code inv goal n next

namespace Until

variable {code : Array Instruction} {inv goal goal' : Machine → Prop} {n k : Nat} {m next : Machine}

/-- The goal has been reached. -/
theorem reached (h : goal m) : Until code inv goal n m := by
  cases n with
  | zero => trivial
  | succ n => exact .inl h

/-- One step. -/
theorem advance (advances : m.advance? code = some next) (kept : inv next)
    (rest : Until code inv goal n next) : Until code inv goal (n + 1) m := by
  refine .inr fun next' advances' => ?_
  obtain rfl := Option.some.inj (advances.symm.trans advances')
  exact ⟨kept, rest⟩

/-- A machine that makes no step. -/
theorem stopped (h : m.advance? code = none) : Until code inv goal n m := by
  cases n with
  | zero => trivial
  | succ n =>
    refine .inr fun next advances => ?_
    rw [h] at advances
    contradiction

/-- Fewer steps. -/
theorem mono (h : Until code inv goal n m) (fewer : k ≤ n) : Until code inv goal k m := by
  induction n generalizing k m with
  | zero =>
    obtain rfl : k = 0 := by omega
    trivial
  | succ n ih =>
    cases k with
    | zero => trivial
    | succ k =>
      refine h.imp_right fun steps next advances => ?_
      obtain ⟨kept, rest⟩ := steps next advances
      exact ⟨kept, ih rest (Nat.le_of_succ_le_succ fewer)⟩

/-- A step that is not counted. -/
theorem step (advances : m.advance? code = some next) (kept : inv next)
    (rest : Until code inv goal n next) : Until code inv goal n m :=
  (advance advances kept rest).mono (Nat.le_succ n)

/-- One goal behind another. -/
theorem bind (h : Until code inv goal n m) (further : ∀ m', goal m' → Until code inv goal' n m') :
    Until code inv goal' n m := by
  induction n generalizing m with
  | zero => trivial
  | succ n ih =>
    rcases h with reached | steps
    · exact further m reached
    · refine .inr fun next advances => ?_
      obtain ⟨kept, rest⟩ := steps next advances
      exact ⟨kept, ih rest fun m' reached => (further m' reached).mono (Nat.le_succ n)⟩

/-- The condition holds on every path, unless the goal is reached. -/
theorem inv_or (start : inv m) (h : ∀ n, Until code inv goal n m) {m' : Machine}
    (path : Path code (fun _ => True) k m m') :
    inv m' ∨ ∃ j between, Path code (fun _ => True) j m between ∧ goal between := by
  induction path with
  | here _ => exact .inl start
  | @step k m next last _ advances rest ih =>
    -- A goal that is reached here ends what is known of the path.
    by_cases reached : goal m
    · exact .inr ⟨0, m, .here trivial, reached⟩
    · have steps : ∀ n, inv next ∧ Until code inv goal n next := fun n =>
        (h (n + 1)).resolve_left reached next advances
      refine (ih (steps 0).1 fun n => (steps n).2).imp_right ?_
      rintro ⟨j, between, path, at_goal⟩
      exact ⟨j + 1, between, .step trivial advances path, at_goal⟩

section Laid

variable {all front block : List Instr} {address : Label → Int32} {grid : Grid} {floor : List Int64}
  {v v' : View}

/-- A block without jumps, of which no position behind the first one is watched. -/
theorem through (laid : Laid all code address) (stands : Stands all front block)
    (free : ∀ p, room front < p → p ≤ room (front ++ block) → ∀ m : Machine, m.pc = Int64.ofNat p → inv m)
    (shows : m.Shows grid (place front) floor v) (run : v.run address grid block = some v')
    (behind : ∀ m' : Machine, m'.Shows grid (place (front ++ block)) floor v' → Until code inv goal n m') :
    Until code inv goal n m := by
  induction block generalizing front m v with
  | nil =>
    cases run
    rw [List.append_nil] at behind
    exact behind m shows
  | cons instr block ih =>
    obtain ⟨between, exec, run⟩ := Option.bind_eq_some_iff.1 run
    rw [List.append_cons] at free behind
    cases kept : instr.isMarker with
    | true =>
      -- No step is taken, so the machine is in front of the rest as well.
      obtain ⟨room_eq, shows⟩ := shows.past_marker kept exec
      rw [← room_eq] at free
      exact ih stands.tail free shows run behind
    | false =>
      obtain ⟨next, advances, shows⟩ := advance_of_exec laid stands kept shows exec
      have room_eq := room_append_kept front kept
      have reach : room (front ++ [instr]) ≤ room (front ++ [instr] ++ block) := by
        rw [Layout.room_append _ block]
        omega
      refine step advances (free _ (by omega) reach next shows.pc_eq) ?_
      exact ih stands.tail (fun p after before => free p (by omega) before) shows run behind

/-- A jump. -/
theorem jump (laid : Laid all code address) {target : Operand}
    (stands : Stands all front (Code.jump target ++ block))
    (free : ∀ m : Machine, m.pc = Int64.ofNat (room front + 1) → inv m)
    (shows : m.Shows grid (place front) floor v)
    (arrives : ∀ m' : Machine, m'.Shows grid (Layout.resolved address target).toInt64 floor v →
      inv m' ∧ Until code inv goal n m') : Until code inv goal (n + 1) m := by
  obtain ⟨between, advances, shows⟩ := advance_of_exec laid stands rfl shows rfl
  obtain ⟨last, advances', shows'⟩ := advance_of_popPc laid stands.tail shows rfl
  have next_pc : between.pc = Int64.ofNat (room front + 1) := by
    rw [shows.pc_eq, place, room_append_kept front rfl]
  obtain ⟨kept, rest⟩ := arrives last shows'
  exact advance advances (free between next_pc) (step advances' kept rest)

end Laid

end Until

end Machine

end GridStack
