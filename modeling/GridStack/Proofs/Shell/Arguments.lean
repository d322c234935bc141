import GridStack.Shell.Arguments

/-!
# What the arguments mean

Two scans go over the same arguments: one looks for the value of a flag, the other for the input. Here it is
said without them which argument each of them is after (`Shell.FirstValue`, `Shell.InputIs`), and both scans
find it when there is one, and nothing otherwise.
-/

namespace GridStack

namespace Shell

/-- A flag has a value: the argument behind the first place of the flag, which is no flag itself. -/
def FirstValue (flag value : String) (args : List String) : Prop :=
  ∃ before after, args = before ++ flag :: value :: after ∧ flag ∉ before ∧ isFlag value = false

/-- The value of a flag that may be missing. -/
def OptionalValue (flag : String) (args : List String) : Option String → Prop
  | none => flag ∉ args
  | some value => FirstValue flag value args

/-- Arguments that are passed over on the way to the input: flags, and the values of those that take one. -/
inductive Passed : List String → Prop
  | nil : Passed []
  | valued {flag value : String} {rest : List String} (takes : takesValue flag = true)
      (passed : Passed rest) : Passed (flag :: value :: rest)
  | flag {arg : String} {rest : List String} (flag : isFlag arg = true) (bare : takesValue arg = false)
      (passed : Passed rest) : Passed (arg :: rest)

/-- The input is the first argument that is neither a flag nor the value of one. -/
def InputIs (path : String) (args : List String) : Prop :=
  ∃ before after, args = before ++ path :: after ∧ Passed before ∧ isFlag path = false

section Flags

variable {flag value : String} {args : List String}

/-- The first argument is the flag, and has a value. -/
theorem FirstValue.here (plain : isFlag value = false) : FirstValue flag value (flag :: value :: args) :=
  ⟨[], args, rfl, List.not_mem_nil, plain⟩

/-- An argument in front that is not the flag does not matter. -/
theorem firstValue_cons {arg : String} (other : arg ≠ flag) :
    FirstValue flag value (arg :: args) ↔ FirstValue flag value args := by
  constructor
  · rintro ⟨before, after, split, first, plain⟩
    cases before with
    | nil => exact absurd (List.cons.inj split).1 other
    | cons front before =>
      exact ⟨before, after, (List.cons.inj split).2, fun mem => first (List.mem_cons_of_mem _ mem), plain⟩
  · rintro ⟨before, after, rfl, first, plain⟩
    refine ⟨arg :: before, after, rfl, fun mem => ?_, plain⟩
    rcases List.mem_cons.1 mem with same | mem
    · exact other same.symm
    · exact first mem

/-- A flag that stands first has the value behind it, or none. -/
theorem firstValue_cons_self :
    FirstValue flag value (flag :: args) ↔ args.head? = some value ∧ isFlag value = false := by
  constructor
  · rintro ⟨before, after, split, first, plain⟩
    cases before with
    | nil =>
      rw [(List.cons.inj split).2]
      exact ⟨rfl, plain⟩
    | cons front before =>
      exact absurd ((List.cons.inj split).1 ▸ List.mem_cons_self) first
  · rintro ⟨head, plain⟩
    obtain ⟨after, rfl⟩ := List.head?_eq_some_iff.1 head
    exact .here plain

/-- The value of a flag is found when it has one. -/
theorem flagValue_eq_some_iff : flagValue flag args = .ok (some value) ↔ FirstValue flag value args := by
  induction args with
  | nil =>
    refine ⟨nofun, ?_⟩
    rintro ⟨before, after, split, -⟩
    simp at split
  | cons arg rest ih =>
    unfold flagValue
    by_cases here : arg = flag
    · rw [if_pos here, here, firstValue_cons_self]
      cases rest with
      | nil => simp
      | cons next rest =>
        cases plain : isFlag next with
        | true =>
          simp only [plain, if_true, List.head?_cons, Option.some.injEq, reduceCtorEq, false_iff, not_and]
          rintro rfl
          simp [plain]
        | false =>
          simp only [plain, Bool.false_eq_true, if_false, List.head?_cons, Except.ok.injEq, Option.some.injEq]
          constructor
          · rintro rfl
            exact ⟨rfl, plain⟩
          · exact And.left
    · rw [if_neg here, ih, firstValue_cons here]

/-- No value is found when the flag is not there. -/
theorem flagValue_eq_none_iff : flagValue flag args = .ok none ↔ flag ∉ args := by
  induction args with
  | nil => simp [flagValue]
  | cons arg rest ih =>
    unfold flagValue
    by_cases here : arg = flag
    · rw [if_pos here]
      cases rest with
      | nil => simp [here]
      | cons next rest =>
        dsimp only
        split <;> simp [here]
    · rw [if_neg here, ih, List.mem_cons, not_or]
      exact ⟨fun absent => ⟨fun same => here same.symm, absent⟩, And.right⟩

/-- The scan for a flag finds its value, or that the flag is missing. -/
theorem flagValue_eq_ok_iff {target : Option String} :
    flagValue flag args = .ok target ↔ OptionalValue flag args target := by
  cases target with
  | none => exact flagValue_eq_none_iff
  | some value => exact flagValue_eq_some_iff

end Flags

section Input

variable {path : String} {args : List String}

/-- What takes a value is a flag. -/
theorem isFlag_of_takesValue {arg : String} (takes : takesValue arg = true) : isFlag arg = true := by
  unfold takesValue at takes
  rw [Bool.or_eq_true, beq_iff_eq, beq_iff_eq] at takes
  rcases takes with rfl | rfl <;> decide +kernel

/-- The input is found behind what is passed over. -/
theorem inputFile?_of_passed {before after : List String} (passed : Passed before)
    (plain : isFlag path = false) : inputFile? (before ++ path :: after) = some path := by
  have no_value : takesValue path = false := by
    refine eq_false_of_ne_true fun takes => ?_
    rw [isFlag_of_takesValue takes] at plain
    contradiction
  induction passed with
  | nil =>
    cases after with
    | nil => simp [inputFile?, plain]
    | cons next after => simp [inputFile?, plain, no_value]
  | valued takes _ ih => simpa [inputFile?, takes] using ih
  | @flag arg rest flag bare _ ih =>
    -- There is another argument behind the flag, at least the input.
    obtain ⟨next, others, split⟩ : ∃ next others, rest ++ path :: after = next :: others :=
      List.exists_cons_of_ne_nil (by simp)
    rw [split] at ih
    rw [List.cons_append, split, inputFile?, bare, flag]
    exact ih

/-- What is in front of the input has been passed over. -/
theorem inputIs_of_inputFile? (found : inputFile? args = some path) : InputIs path args := by
  induction args using inputFile?.induct with
  | case1 => contradiction
  | case2 arg flag =>
    rw [inputFile?, if_pos flag] at found
    contradiction
  | case3 arg plain =>
    rw [inputFile?, if_neg plain] at found
    obtain rfl := Option.some.inj found
    exact ⟨[], [], rfl, .nil, eq_false_of_ne_true plain⟩
  | case4 arg next rest takes ih =>
    rw [inputFile?, if_pos takes] at found
    obtain ⟨before, after, rfl, passed, plain⟩ := ih found
    exact ⟨arg :: next :: before, after, rfl, .valued takes passed, plain⟩
  | case5 arg next rest bare flag ih =>
    rw [inputFile?, if_neg bare, if_pos flag] at found
    obtain ⟨before, after, split, passed, plain⟩ := ih found
    exact ⟨arg :: before, after, by rw [split]; rfl, .flag flag (eq_false_of_ne_true bare) passed,
      plain⟩
  | case6 arg next rest bare plain =>
    rw [inputFile?, if_neg bare, if_neg plain] at found
    obtain rfl := Option.some.inj found
    exact ⟨[], next :: rest, rfl, .nil, eq_false_of_ne_true plain⟩

/-- The scan for the input finds the first argument that is neither a flag nor the value of one. -/
theorem inputFile?_eq_some_iff : inputFile? args = some path ↔ InputIs path args := by
  refine ⟨inputIs_of_inputFile?, ?_⟩
  rintro ⟨before, after, rfl, passed, plain⟩
  exact inputFile?_of_passed passed plain

end Input

end Shell

end GridStack
