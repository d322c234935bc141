import GridStack.Machine.Run
import GridStack.Proofs.Machine.Executes

/-!
# Paths of the machine

`advance?` is one step of a run, and `Path code inv k m m'` says that `k` such steps lead from `m` to
`m'` over machines that all satisfy `inv`, both ends included. The machine is deterministic, so a path
is cut at any place (`Path.split`) and two paths of one length from one machine end at the same one
(`Path.unique`).

A run looks at the height of the stack behind each step, and not before the first one; the steps that it
makes are a `Walk`. The two sides of a run are `runFor_ends`, which is read off its recursion and finds the
steps that it has made and the one of four ways in which it ended there (`Ends`), and `runFor_of_walk`, by
which a run follows steps as long as its limits allow. `runFor_cases` and `runFor_of_path` say the same of
paths. For runs that end by themselves this is `halted_of_run` and `run_of_halted`.
-/

namespace GridStack

namespace Machine

/-- The machine after one more step of a run, none when it has stopped or the step faults. -/
def advance? (code : Array Instruction) (m : Machine) : Option Machine :=
  match m.fetch? code with
  | none => none
  | some instr =>
    match step instr { m with steps := m.steps + 1 } with
    | .ok () next => some next
    | .error _ _ => none

/-- The machine that has begun a step: it is counted, and the program counter has moved on. -/
def begun (m : Machine) : Machine :=
  { m with steps := m.steps + 1 }.setPc (m.pc + 1)

/-- A number of steps, over machines that satisfy a condition. -/
inductive Path (code : Array Instruction) (inv : Machine → Prop) : Nat → Machine → Machine → Prop
  | here {m : Machine} (at_end : inv m) : Path code inv 0 m m
  | step {k : Nat} {m next last : Machine} (at_start : inv m) (advances : m.advance? code = some next)
      (rest : Path code inv k next last) : Path code inv (k + 1) m last

namespace Path

variable {code : Array Instruction} {inv inv' : Machine → Prop} {k l : Nat} {m m' m'' : Machine}

/-- The condition holds where a path starts. -/
theorem start (h : Path code inv k m m') : inv m := by
  cases h with
  | here h => exact h
  | step h _ _ => exact h

/-- The condition holds where a path ends. -/
theorem finish (h : Path code inv k m m') : inv m' := by
  induction h with
  | here h => exact h
  | step _ _ _ ih => exact ih

/-- A path over machines that satisfy a condition is one over machines that satisfy a weaker one. -/
theorem mono (h : Path code inv k m m') (weaker : ∀ m, inv m → inv' m) : Path code inv' k m m' := by
  induction h with
  | here h => exact .here (weaker _ h)
  | step h advances _ ih => exact .step (weaker _ h) advances ih

/-- What holds at the start of a path and is preserved by every step holds at its end. -/
theorem preserves {keeps : Machine → Prop} (h : Path code inv k m m') (start : keeps m)
    (step : ∀ m next, keeps m → m.advance? code = some next → keeps next) : keeps m' := by
  induction h with
  | here _ => exact start
  | step _ advances _ ih => exact ih (step _ _ start advances)

/-- Two paths, one behind the other. -/
theorem trans (h : Path code inv k m m') (h' : Path code inv l m' m'') :
    Path code inv (k + l) m m'' := by
  induction h with
  | here _ => rw [Nat.zero_add]; exact h'
  | step at_start advances _ ih =>
    rw [Nat.add_right_comm]
    exact .step at_start advances (ih h')

/-- A single step. -/
theorem single (at_start : inv m) (advances : m.advance? code = some m') (at_end : inv m') :
    Path code inv 1 m m' :=
  .step at_start advances (.here at_end)

/-- Paths of one length from one machine end at one machine. -/
theorem unique (h : Path code inv k m m') (h' : Path code inv' k m m'') : m' = m'' := by
  induction h with
  | here _ =>
    cases h' with
    | here _ => rfl
  | step _ advances _ ih =>
    cases h' with
    | step _ advances' rest' =>
      -- A machine has one next machine.
      obtain rfl : _ = _ := Option.some.inj (advances.symm.trans advances')
      exact ih rest'

/-- A path can be cut at any place. -/
theorem split (h : Path code inv k m m') (hl : l ≤ k) :
    ∃ between, Path code inv l m between ∧ Path code inv (k - l) between m' := by
  induction h generalizing l with
  | here at_end =>
    obtain rfl : l = 0 := by omega
    exact ⟨_, .here at_end, .here at_end⟩
  | @step k m next last at_start advances rest ih =>
    cases l with
    | zero => exact ⟨m, .here at_start, .step at_start advances rest⟩
    | succ l =>
      -- The place of the cut is in the rest, one step nearer.
      obtain ⟨between, before, behind⟩ := ih (by omega : l ≤ k)
      refine ⟨between, .step at_start advances before, ?_⟩
      rw [Nat.add_sub_add_right]
      exact behind

/-- What a path passes satisfies the condition of any other path from the same machine that is at least
as long. -/
theorem passes (h : Path code inv k m m') (h' : Path code inv' l m m'') (hl : l ≤ k) : inv m'' := by
  obtain ⟨between, before, behind⟩ := h.split hl
  obtain rfl := before.unique h'
  exact behind.start

/-- A machine inside a path can make a step. -/
theorem advances_within (h : Path code inv k m m') (h' : Path code inv' l m m'') (hl : l < k) :
    ∃ next, m''.advance? code = some next := by
  obtain ⟨between, before, behind⟩ := h.split (Nat.le_of_lt hl)
  obtain rfl := before.unique h'
  obtain ⟨r, hr⟩ : ∃ r, k - l = r + 1 := ⟨k - l - 1, by omega⟩
  rw [hr] at behind
  cases behind with
  | step _ advances _ => exact ⟨_, advances⟩

/-- No path goes on from a machine that makes no step. -/
theorem le_of_stopped (h : Path code inv k m m') (h' : Path code inv' l m m'')
    (stopped : m'.advance? code = none) : l ≤ k := by
  refine Nat.le_of_not_lt fun hl => ?_
  obtain ⟨next, advances⟩ := h'.advances_within h hl
  rw [stopped] at advances
  contradiction

end Path

/-- A machine steps exactly when its counter points into the code and the instruction there does not
fault. -/
theorem advance?_eq_some_iff {code : Array Instruction} {m next : Machine} :
    m.advance? code = some next ↔
      ∃ instr, m.fetch? code = some instr ∧ step instr { m with steps := m.steps + 1 } = .ok () next := by
  unfold advance?
  cases hf : m.fetch? code with
  | none => simp
  | some instr =>
    simp only [Option.some.injEq, exists_eq_left']
    cases hs : step instr { m with steps := m.steps + 1 } with
    | ok u next' => simp
    | error fault stopped => simp

/-- A machine steps exactly when its counter points into the code and the rules say what becomes of it. -/
theorem advance?_iff_executes {code : Array Instruction} {m next : Machine} :
    m.advance? code = some next ↔ ∃ instr, m.fetch? code = some instr ∧ m.begun.Executes instr next := by
  simp only [advance?_eq_some_iff, step_eq_ok_iff]
  rfl

/-- The machine after a number of steps, none when it does not make that many. -/
def stepped? (code : Array Instruction) : Nat → Machine → Option Machine
  | 0, m => some m
  | k + 1, m => (m.advance? code).bind (stepped? code k)

/-- A number of steps can be computed. -/
theorem path_iff {code : Array Instruction} {k : Nat} {m m' : Machine} :
    Path code (fun _ => True) k m m' ↔ m.stepped? code k = some m' := by
  induction k generalizing m with
  | zero =>
    constructor
    · intro path
      cases path with
      | here _ => rfl
    · intro h
      rw [← Option.some.inj h]
      exact .here trivial
  | succ k ih =>
    rw [stepped?, Option.bind_eq_some_iff]
    constructor
    · intro path
      cases path with
      | step _ advances rest => exact ⟨_, advances, ih.1 rest⟩
    · rintro ⟨next, advances, rest⟩
      exact .step trivial advances (ih.2 rest)

/-- A machine that has stopped makes no step. -/
theorem advance?_of_halted {code : Array Instruction} {m : Machine} (h : m.halted code) :
    m.advance? code = none := by
  unfold halted at h
  rw [Option.isNone_iff_eq_none] at h
  unfold advance?
  rw [h]

/-- An address below zero is outside any code. -/
theorem halted_of_neg {code : Array Instruction} {m : Machine} (h : m.pc.toInt < 0) : m.halted code := by
  unfold halted fetch?
  rw [if_neg (by omega)]
  rfl

/-- A machine whose program counter has been set to `halt` has stopped. -/
theorem halted_of_halt {code : Array Instruction} {m : Machine} (h : m.pc = halt.toInt64) :
    m.halted code := by
  refine halted_of_neg ?_
  rw [h]
  decide

/-- A machine that can make a step points into the code. -/
theorem pc_of_advance? {code : Array Instruction} {m next : Machine}
    (h : m.advance? code = some next) : 0 ≤ m.pc.toInt ∧ m.pc.toInt < code.size := by
  obtain ⟨instr, hf, -⟩ := advance?_eq_some_iff.1 h
  unfold fetch? at hf
  split at hf
  · next hpc =>
    obtain ⟨hlt, -⟩ := Array.getElem?_eq_some_iff.1 hf
    omega
  · contradiction

section Limited

variable {code : Array Instruction} {limits : Limits} {k remaining : Nat} {m next last : Machine}

/-- A number of steps, behind each of which the stack is no higher than a limit. -/
inductive Walk (code : Array Instruction) (limit : Nat) : Nat → Machine → Machine → Prop
  | here {m : Machine} : Walk code limit 0 m m
  | step {k : Nat} {m next last : Machine} (advances : m.advance? code = some next)
      (low : next.stack.height ≤ limit) (rest : Walk code limit k next last) : Walk code limit (k + 1) m last

/-- How a run of at most `remaining` steps ends, and the steps that it has made. -/
inductive Ends (limits : Limits) (code : Array Instruction) (remaining : Nat) (m : Machine) : Ending → Prop
  | halted {k : Nat} {last : Machine} (within : k ≤ remaining) (walk : Walk code limits.stack k m last)
      (halted : last.halted code) : Ends limits code remaining m ⟨last, none⟩
  | stepLimit {last : Machine} (walk : Walk code limits.stack remaining m last) (running : ¬ last.halted code) :
      Ends limits code remaining m ⟨{ last with steps := last.steps + 1 }, some (.stepLimit limits.steps)⟩
  | stackLimit {k : Nat} {last next : Machine} (within : k < remaining)
      (walk : Walk code limits.stack k m last) (advances : last.advance? code = some next)
      (high : limits.stack < next.stack.height) : Ends limits code remaining m ⟨next, some .stackLimit⟩
  | fault {k : Nat} {last stopped : Machine} {instr : Instruction} {fault : Fault} (within : k < remaining)
      (walk : Walk code limits.stack k m last) (fetched : last.fetch? code = some instr)
      (fails : step instr { last with steps := last.steps + 1 } = .error fault stopped) :
      Ends limits code remaining m ⟨stopped, some fault⟩

namespace Walk

variable {limit limit' : Nat}

/-- A higher stack is allowed. -/
theorem mono (walk : Walk code limit k m last) (le : limit ≤ limit') : Walk code limit' k m last := by
  induction walk with
  | here => exact .here
  | step advances low _ ih => exact .step advances (Nat.le_trans low le) ih

/-- Steps without a limit. -/
theorem path (walk : Walk code limit k m last) : Path code (fun _ => True) k m last := by
  induction walk with
  | here => exact .here trivial
  | step advances _ _ ih => exact .step trivial advances ih

end Walk

/-- Steps over machines whose stacks are no higher than a limit. -/
theorem Path.walk {limit : Nat} (path : Path code (fun m => m.stack.height ≤ limit) k m last) :
    Walk code limit k m last := by
  induction path with
  | here _ => exact .here
  | step _ advances rest ih => exact .step advances rest.start ih

/-- A step in front of a run. -/
theorem Ends.behind {ending : Ending} (advances : m.advance? code = some next)
    (low : next.stack.height ≤ limits.stack) (ends : Ends limits code remaining next ending) :
    Ends limits code (remaining + 1) m ending := by
  cases ends with
  | halted within walk halted => exact .halted (Nat.succ_le_succ within) (.step advances low walk) halted
  | stepLimit walk running => exact .stepLimit (.step advances low walk) running
  | stackLimit within walk advances' high =>
    exact .stackLimit (Nat.succ_lt_succ within) (.step advances low walk) advances' high
  | fault within walk fetched fails =>
    exact .fault (Nat.succ_lt_succ within) (.step advances low walk) fetched fails

/-- A run ends in one of the four ways. -/
theorem runFor_ends (limits : Limits) (code : Array Instruction) (remaining : Nat) (m : Machine) :
    Ends limits code remaining m (m.runFor limits code remaining) := by
  induction remaining generalizing m with
  | zero =>
    rw [runFor]
    split
    · next halted => exact .halted (Nat.le_refl _) .here halted
    · next running => exact .stepLimit .here running
  | succ remaining ih =>
    rw [runFor]
    cases fetched : m.fetch? code with
    | none =>
      have halted : m.halted code := by
        unfold Machine.halted
        rw [fetched]
        rfl
      exact .halted (Nat.zero_le _) .here halted
    | some instr =>
      dsimp only
      cases result : step instr { m with steps := m.steps + 1 } with
      | error fault stopped => exact .fault (Nat.succ_pos _) .here fetched result
      | ok _ next =>
        have advances : m.advance? code = some next := advance?_eq_some_iff.2 ⟨instr, fetched, result⟩
        dsimp only
        -- The limit of the stack is looked at when the step has been made.
        split
        · next high => exact .stackLimit (Nat.succ_pos _) .here advances high
        · next low => exact .behind advances (Nat.le_of_not_lt low) (ih next)

/-- A run follows steps that its limits allow. -/
theorem runFor_of_walk (walk : Walk code limits.stack k m last) (within : k ≤ remaining) :
    m.runFor limits code remaining = last.runFor limits code (remaining - k) := by
  induction walk generalizing remaining with
  | here => rw [Nat.sub_zero]
  | @step k m next last advances low rest ih =>
    obtain ⟨r, rfl⟩ : ∃ r, remaining = r + 1 :=
      Nat.exists_eq_add_one.2 (Nat.lt_of_lt_of_le (Nat.succ_pos k) within)
    obtain ⟨instr, fetched, result⟩ := advance?_eq_some_iff.1 advances
    rw [runFor, fetched]
    dsimp only
    rw [result]
    dsimp only
    rw [if_neg (Nat.not_lt.2 low), ih (Nat.le_of_succ_le_succ within), Nat.add_sub_add_right]

/-- A run follows a path of at most `remaining` steps, and ends in one of four ways: the machine has
stopped, the steps are used up, the stack is too high, or a step faults. -/
theorem runFor_cases (limits : Limits) (code : Array Instruction) (remaining : Nat) (m : Machine) :
    ∃ k m', k ≤ remaining ∧ Path code (fun _ => True) k m m' ∧
      ((m'.halted code ∧ m.runFor limits code remaining = ⟨m', none⟩) ∨
        (k = remaining ∧ ¬ m'.halted code ∧ m.runFor limits code remaining
          = ⟨{ m' with steps := m'.steps + 1 }, some (.stepLimit limits.steps)⟩) ∨
        (m.runFor limits code remaining = ⟨m', some .stackLimit⟩) ∨
        (m'.advance? code = none ∧ ¬ m'.halted code ∧ (m.runFor limits code remaining).fault ≠ none)) := by
  have ends := runFor_ends limits code remaining m
  generalize m.runFor limits code remaining = ending at ends ⊢
  cases ends with
  | halted within walk halted => exact ⟨_, _, within, walk.path, .inl ⟨halted, rfl⟩⟩
  | stepLimit walk running => exact ⟨_, _, Nat.le_refl _, walk.path, .inr (.inl ⟨rfl, running, rfl⟩)⟩
  | stackLimit within walk advances high =>
    exact ⟨_, _, within, walk.path.trans (.single trivial advances trivial), .inr (.inr (.inl rfl))⟩
  | fault within walk fetched fails =>
    refine ⟨_, _, Nat.le_of_lt within, walk.path, .inr (.inr (.inr ⟨?_, ?_, Option.some_ne_none _⟩))⟩
    · unfold advance?
      rw [fetched]
      dsimp only
      rw [fails]
    · unfold halted
      rw [fetched]
      exact Bool.false_ne_true

/-- A run follows a path on which the stack stays within the limit. -/
theorem runFor_of_path {limits : Limits} {code : Array Instruction} {k remaining : Nat}
    {m m' : Machine} (h : Path code (fun m => m.stack.height ≤ limits.stack) k m m')
    (hk : k ≤ remaining) : m.runFor limits code remaining = m'.runFor limits code (remaining - k) :=
  runFor_of_walk h.walk hk

end Limited

/-- A machine that has stopped ends its run at once. -/
theorem runFor_of_halted {limits : Limits} {code : Array Instruction} {remaining : Nat} {m : Machine}
    (h : m.halted code) : m.runFor limits code remaining = ⟨m, none⟩ := by
  cases remaining with
  | zero => rw [runFor, if_pos h]
  | succ remaining =>
    unfold halted at h
    rw [Option.isNone_iff_eq_none] at h
    rw [runFor, h]

/-- Some limit is enough for the stack on a path. -/
theorem Path.height_bounded {code : Array Instruction} {inv : Machine → Prop} {k : Nat}
    {m m' : Machine} (h : Path code inv k m m') :
    ∃ height, Path code (fun m => m.stack.height ≤ height) k m m' := by
  induction h with
  | @here m _ => exact ⟨m.stack.height, .here (Nat.le_refl _)⟩
  | @step k m next last _ advances _ ih =>
    obtain ⟨height, path⟩ := ih
    refine ⟨max height m.stack.height, .step (Nat.le_max_right _ _) advances (path.mono ?_)⟩
    intro m hm
    exact Nat.le_trans hm (Nat.le_max_left _ _)

section Run

variable {image : Image} {m m' : Machine} {k : Nat}

/-- A machine that comes to a stop does so in every run that the limits let go that far. -/
theorem run_of_halted (path : Path image.code.toArray (fun _ => True) k m m')
    (stopped : m'.halted image.code.toArray) :
    ∃ bound : Limits, ∀ limits : Limits, bound.steps ≤ limits.steps → bound.stack ≤ limits.stack →
      m.run limits image = ⟨m', none⟩ := by
  -- A path is finite, and so is the height that the stack comes to on it.
  obtain ⟨height, low⟩ := path.height_bounded
  refine ⟨⟨m.steps + k, height⟩, fun limits steps stack => ?_⟩
  have within : Path image.code.toArray (fun m => m.stack.height ≤ limits.stack) k m m' :=
    low.mono fun _ le => Nat.le_trans le stack
  dsimp only at steps
  unfold run
  rw [runFor_of_path within (by omega), runFor_of_halted stopped]

/-- A run that ends without a fault has come to a stop. -/
theorem halted_of_run {limits : Limits} (h : (m.run limits image).fault = none) :
    ∃ k, Path image.code.toArray (fun _ => True) k m (m.run limits image).machine ∧
      (m.run limits image).machine.halted image.code.toArray := by
  unfold run at h ⊢
  obtain ⟨k, last, -, path, ends⟩ := runFor_cases limits image.code.toArray (limits.steps - m.steps) m
  rcases ends with ⟨stopped, eq⟩ | ⟨-, -, eq⟩ | eq | ⟨-, -, fault⟩
  · rw [eq]
    exact ⟨k, path, stopped⟩
  · rw [eq] at h
    contradiction
  · rw [eq] at h
    contradiction
  · exact absurd h fault

end Run

end Machine

end GridStack
