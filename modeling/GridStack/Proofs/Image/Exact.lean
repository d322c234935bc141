import Mathlib.Data.List.Forall2
import GridStack.Proofs.Image.Resolution

/-!
# Layout is exact

What an image is, said without the walk that makes it. A label is placed at the number of instructions
that are kept in front of the one with its mark (`Layout.PlacedAt`), an operand stands for a number when
it is the number or a label placed there (`Layout.Denotes`), and an image is laid out when it has the
instructions that are kept, in their order, each with what its operands stand for (`Layout.ResolvesTo`).

`Image.ofRoutines_exact` is that layout succeeds exactly when there is an answer, with every label in one
place and every label that is named in some place, and that it gives this answer. The routines are any
lists of instructions: labels may be shared, several may stand in front of one instruction or behind the
last one, an instruction that is kept may have a mark itself, and what a marker names is of no account.

Each function of the layout is shown to compute a relation between what it is given and what it gives, over
the table of positions; that the table has the positions of `PlacedAt` is used only at the end.
-/

namespace GridStack

namespace Layout

open CompileError (bind_eq_ok_iff)

/-- A label is placed at a position of code: an instruction with its mark has so many kept ones in front of
it. -/
def PlacedAt (code : List Instr) (label : Label) (position : Nat) : Prop :=
  ∃ front instr back, code = front ++ instr :: back ∧ instr.mark = some label ∧ position = room front

/-- What an operand stands for, when it is known where labels are placed. -/
inductive Denotes (place : Label → Nat → Prop) : Operand → Int32 → Prop
  | imm (value : Int32) : Denotes place (.imm value) value
  | label {target : Label} {position : Nat} {value : Int32} (placed : place target position)
      (eq : value.toInt = position) : Denotes place (.label target) value

/-- An instruction has become another one: the operation is the same, and so is the number of operands, of
which each is what the one in its place stands for. -/
structure Resolves (place : Label → Nat → Prop) (instr : Instr) (placed : Instruction) : Prop where
  op : placed.op = instr.op
  a : Option.Rel (Denotes place) instr.a placed.a
  b : Option.Rel (Denotes place) instr.b placed.b

/-- The symbol of a routine, which begins where its label is placed. -/
structure Names (place : Label → Nat → Prop) (routine : Routine) (symbol : Symbol) : Prop where
  name : symbol.name = routine.name
  entry : place routine.entry symbol.entry.toNat

/-- The instructions that an image keeps. -/
def kept (code : List Instr) : List Instr :=
  code.filter fun instr => !instr.isMarker

/-- No label is the mark of two instructions. -/
def Once (code : List Instr) : Prop :=
  code.Pairwise fun i j => ∀ label, i.mark = some label → j.mark ≠ some label

/-- Routines that have a layout. -/
structure Resolvable (routines : List Routine) : Prop where
  once : Once (routines.flatMap Routine.code)
  /-- The labels that are operands of an instruction that is kept are placed. -/
  operands : ∀ i ∈ routines.flatMap Routine.code, i.isMarker = false →
    ∀ label, i.a = some (.label label) ∨ i.b = some (.label label) →
      ∃ j ∈ routines.flatMap Routine.code, j.mark = some label
  /-- The labels of the routines are placed. -/
  entries : ∀ r ∈ routines, ∃ j ∈ routines.flatMap Routine.code, j.mark = some r.entry

/-- The image of routines. -/
structure ResolvesTo (routines : List Routine) (image : Image) : Prop where
  code : List.Forall₂ (Resolves (PlacedAt (routines.flatMap Routine.code)))
    (kept (routines.flatMap Routine.code)) image.code
  symbols : List.Forall₂ (Names (PlacedAt (routines.flatMap Routine.code))) routines image.symbols

section Table

variable {table : Positions}

/-- A label stands in a table with a position. -/
abbrev Listed (table : Positions) (label : Label) (position : Nat) : Prop :=
  table.lookup label = some position

/-- A position that 31 bits hold is the number that it becomes as an operand. -/
theorem ofNat_eq_iff {position : Nat} {value : Int32} (short : position < 2147483648) :
    Int32.ofNat position = value ↔ value.toInt = position := by
  have exact : (Int32.ofNat position).toInt = position := Int32.toInt_ofNat_of_lt short
  constructor
  · rintro rfl
    exact exact
  · intro eq
    exact Int32.toInt_inj.1 (exact.trans eq.symm)

/-- The same for a position that becomes the entry of a symbol. -/
theorem ofNat_eq_iff' {position : Nat} {entry : UInt32} (short : position < 2147483648) :
    UInt32.ofNat position = entry ↔ position = entry.toNat := by
  have exact : (UInt32.ofNat position).toNat = position :=
    UInt32.toNat_ofNat_of_lt' (Nat.lt_trans short (by decide))
  constructor
  · rintro rfl
    exact exact.symm
  · rintro rfl
    exact UInt32.ofNat_toNat

variable (short : ∀ label position, Listed table label position → position < 2147483648)
include short

/-- An operand is replaced by what it stands for. -/
theorem operand_eq_ok_iff {x : Operand} {value : Int32} :
    operand table x = .ok value ↔ Denotes (Listed table) x value := by
  cases x with
  | imm n =>
    constructor
    · rintro ⟨⟩
      exact .imm value
    · rintro ⟨⟩
      rfl
  | label target =>
    cases found : table.lookup target with
    | none =>
      -- A label that is not placed denotes nothing, and there the layout fails.
      have fails : operand table (.label target) = .error (.unplaced target) := by
        simp only [operand, found]
      rw [fails]
      constructor
      · intro replaced
        contradiction
      · rintro ⟨⟩
        next placed _ => exact absurd (placed.symm.trans found) (Option.some_ne_none _)
    | some position =>
      have replaced : operand table (.label target) = .ok (Int32.ofNat position) := by
        simp only [operand, found]
      rw [replaced, Except.ok.injEq, ofNat_eq_iff (short target position found)]
      constructor
      · exact .label found
      · rintro ⟨⟩
        next placed eq => rwa [Option.some.inj (found.symm.trans placed)]

/-- An operand is replaced if there is one. -/
theorem operand?_eq_ok_iff {x : Option Operand} {value : Option Int32} :
    operand? table x = .ok value ↔ Option.Rel (Denotes (Listed table)) x value := by
  cases x with
  | none =>
    constructor
    · rintro ⟨⟩
      exact .none
    · rintro ⟨⟩
      rfl
  | some x =>
    change operand table x >>= (fun v => pure (some v)) = .ok value ↔ _
    rw [bind_eq_ok_iff]
    constructor
    · rintro ⟨v, replaced, ⟨⟩⟩
      exact .some ((operand_eq_ok_iff short).1 replaced)
    · rintro ⟨denotes⟩
      exact ⟨_, (operand_eq_ok_iff short).2 denotes, rfl⟩

/-- Of an instruction both operands are replaced. -/
theorem instruction_eq_ok_iff {i : Instr} {placed : Instruction} :
    instruction table i = .ok placed ↔ Resolves (Listed table) i placed := by
  unfold instruction
  simp only [bind_eq_ok_iff, operand?_eq_ok_iff short]
  constructor
  · rintro ⟨a, first, b, second, ⟨⟩⟩
    exact ⟨rfl, first, second⟩
  · rintro ⟨op, first, second⟩
    exact ⟨_, first, _, second, by rw [← op]; rfl⟩

/-- Code is replaced instruction by instruction. -/
theorem instructions_eq_ok_iff {code : List Instr} {placed : List Instruction} :
    instructions table code = .ok placed ↔ List.Forall₂ (Resolves (Listed table)) code placed := by
  induction code generalizing placed with
  | nil =>
    rw [List.forall₂_nil_left_iff]
    constructor
    · rintro ⟨⟩
      rfl
    · rintro rfl
      rfl
  | cons i code ih =>
    rw [List.forall₂_cons_left_iff]
    unfold instructions
    simp only [bind_eq_ok_iff, instruction_eq_ok_iff short, ih]
    constructor
    · rintro ⟨head, first, tail, second, ⟨⟩⟩
      exact ⟨head, tail, first, second, rfl⟩
    · rintro ⟨head, tail, first, second, rfl⟩
      exact ⟨head, first, tail, second, rfl⟩

/-- Every routine has its symbol. -/
theorem symbols_eq_ok_iff {routines : List Routine} {names : List Symbol} :
    symbols table routines = .ok names ↔ List.Forall₂ (Names (Listed table)) routines names := by
  induction routines generalizing names with
  | nil =>
    rw [List.forall₂_nil_left_iff]
    constructor
    · rintro ⟨⟩
      rfl
    · rintro rfl
      rfl
  | cons r rest ih =>
    rw [List.forall₂_cons_left_iff]
    constructor
    · intro ok
      unfold symbols at ok
      cases found : table.lookup r.entry with
      | none =>
        rw [found] at ok
        contradiction
      | some position =>
        rw [found] at ok
        obtain ⟨tail, others, ⟨⟩⟩ := bind_eq_ok_iff.1 ok
        have entry := (ofNat_eq_iff' (short r.entry position found)).1 rfl
        exact ⟨_, tail, ⟨rfl, found.trans (congrArg some entry)⟩, ih.1 others, rfl⟩
    · rintro ⟨symbol, tail, ⟨name, entry⟩, others, rfl⟩
      unfold symbols
      rw [entry, ih.2 others, ← name]
      have same := (ofNat_eq_iff' (short r.entry symbol.entry.toNat entry)).2 rfl
      show Except.ok (Symbol.mk symbol.name (UInt32.ofNat symbol.entry.toNat) :: tail) = _
      rw [same]

end Table

section Code

variable {code : List Instr}

/-- No label is the mark of two instructions when the labels that are placed are different. -/
theorem nodup_marks_iff : (Code.marks code).Nodup ↔ Once code := by
  unfold Code.marks Once
  rw [List.Nodup, List.pairwise_filterMap]
  refine List.Pairwise.iff fun i j => ?_
  constructor
  · exact fun different label first second => different label first label second rfl
  · rintro different label first _ second rfl
    exact different label first second

/-- A label is placed when it is the mark of an instruction. -/
theorem exists_placedAt_iff {label : Label} :
    (∃ position, PlacedAt code label position) ↔ ∃ i ∈ code, i.mark = some label := by
  constructor
  · rintro ⟨_, front, i, back, rfl, marked, -⟩
    exact ⟨i, List.mem_append_right _ List.mem_cons_self, marked⟩
  · rintro ⟨i, mem, marked⟩
    obtain ⟨front, back, rfl⟩ := List.append_of_mem mem
    exact ⟨_, front, i, back, rfl, marked, rfl⟩

/-- A position is at most the number of instructions. -/
theorem PlacedAt.le {label : Label} {position : Nat} (h : PlacedAt code label position) :
    position ≤ code.length := by
  obtain ⟨front, i, back, rfl, -, rfl⟩ := h
  have inside : room front ≤ front.length := List.countP_le_length
  rw [List.length_append]
  omega

/-- When no label is placed twice the walk finds each at its place. -/
theorem lookup_positions_iff (once : Once code) {label : Label} {position : Nat} :
    (positions 0 code).lookup label = some position ↔ PlacedAt code label position := by
  have nodup : ((positions 0 code).map Prod.fst).Nodup := by
    rw [positions_fst]
    exact nodup_marks_iff.2 once
  have finds : ∀ {position}, PlacedAt code label position →
      (positions 0 code).lookup label = some position := by
    rintro _ ⟨front, i, back, rfl, marked, rfl⟩
    exact lookup_positions nodup marked
  refine ⟨fun found => ?_, finds⟩
  -- What is found is a mark, so it has a place, and at this place it is found.
  have mark : label ∈ Code.marks code := by
    rw [← positions_fst 0]
    have some_found : ((positions 0 code).lookup label).isSome := by rw [found]; rfl
    obtain ⟨pair, mem, eq⟩ := List.lookup_isSome_iff.1 some_found
    exact List.mem_map.2 ⟨pair, mem, (eq_of_beq eq).symm⟩
  obtain ⟨place, placed⟩ := exists_placedAt_iff.2 (List.mem_filterMap.1 mark)
  rwa [Option.some.inj (found.symm.trans (finds placed))]

end Code

variable {routines : List Routine}

/-- An instruction has an answer when the labels that it names are placed. -/
theorem exists_resolves_iff {place : Label → Nat → Prop} {i : Instr}
    (short : ∀ label position, place label position → position < 2147483648) :
    (∃ placed, Resolves place i placed) ↔
      ∀ label, i.a = some (.label label) ∨ i.b = some (.label label) → ∃ position, place label position := by
  -- Operands do not depend on each other, so this is about one operand at a time.
  have operand : ∀ x : Option Operand, (∃ value, Option.Rel (Denotes place) x value) ↔
      ∀ label, x = some (.label label) → ∃ position, place label position := by
    intro x
    constructor
    · rintro ⟨_, ⟨⟩⟩ label eq
      · cases eq
        next denotes => cases denotes with | label placed _ => exact ⟨_, placed⟩
      · contradiction
    · intro named
      match x with
      | none => exact ⟨none, .none⟩
      | some (.imm n) => exact ⟨some n, .some (.imm n)⟩
      | some (.label target) =>
        obtain ⟨position, placed⟩ := named target rfl
        have eq := (ofNat_eq_iff (short target position placed)).1 rfl
        exact ⟨some (Int32.ofNat position), .some (.label placed eq)⟩
  constructor
  · rintro ⟨placed, -, a, b⟩ label (first | second)
    · exact (operand i.a).1 ⟨_, a⟩ label first
    · exact (operand i.b).1 ⟨_, b⟩ label second
  · intro named
    obtain ⟨a, first⟩ := (operand i.a).2 fun label eq => named label (.inl eq)
    obtain ⟨b, second⟩ := (operand i.b).2 fun label eq => named label (.inr eq)
    exact ⟨⟨i.op, a, b⟩, rfl, first, second⟩

/-- A list has an answer when each of its elements has one. -/
theorem exists_forall₂_iff {α β : Type} {R : α → β → Prop} {xs : List α} :
    (∃ ys, List.Forall₂ R xs ys) ↔ ∀ x ∈ xs, ∃ y, R x y := by
  induction xs with
  | nil => exact iff_of_true ⟨[], .nil⟩ (List.forall_mem_nil _)
  | cons x xs ih =>
    rw [List.forall_mem_cons, ← ih]
    constructor
    · rintro ⟨_, ⟨⟩⟩
      next first rest => exact ⟨⟨_, first⟩, _, rest⟩
    · rintro ⟨⟨y, first⟩, ys, rest⟩
      exact ⟨y :: ys, .cons first rest⟩

/-- Routines have a layout when no label is placed twice and there is an answer. -/
theorem resolvable_iff (short : (routines.flatMap Routine.code).length < 2147483648) :
    Resolvable routines ↔ Once (routines.flatMap Routine.code) ∧ ∃ image, ResolvesTo routines image := by
  have bound : ∀ label position, PlacedAt (routines.flatMap Routine.code) label position →
      position < 2147483648 := fun _ _ placed => Nat.lt_of_le_of_lt placed.le short
  have code : (∃ placed, List.Forall₂ (Resolves (PlacedAt (routines.flatMap Routine.code)))
      (kept (routines.flatMap Routine.code)) placed) ↔
      ∀ i ∈ routines.flatMap Routine.code, i.isMarker = false →
        ∀ label, i.a = some (.label label) ∨ i.b = some (.label label) →
          ∃ j ∈ routines.flatMap Routine.code, j.mark = some label := by
    simp only [exists_forall₂_iff, exists_resolves_iff bound, exists_placedAt_iff, kept, List.mem_filter,
      Bool.not_eq_true', and_imp]
  have symbols : (∃ names, List.Forall₂ (Names (PlacedAt (routines.flatMap Routine.code))) routines names) ↔
      ∀ r ∈ routines, ∃ j ∈ routines.flatMap Routine.code, j.mark = some r.entry := by
    rw [exists_forall₂_iff]
    refine forall₂_congr fun r _ => ?_
    rw [← exists_placedAt_iff]
    constructor
    · rintro ⟨symbol, names⟩
      exact ⟨_, names.entry⟩
    · rintro ⟨position, placed⟩
      have entry := (ofNat_eq_iff' (bound r.entry position placed)).1 rfl
      exact ⟨⟨r.name, UInt32.ofNat position⟩, rfl, entry ▸ placed⟩
  constructor
  · rintro ⟨once, operands, entries⟩
    obtain ⟨placed, resolved⟩ := code.2 operands
    obtain ⟨names, named⟩ := symbols.2 entries
    exact ⟨once, ⟨placed, names⟩, resolved, named⟩
  · rintro ⟨once, image, resolved, named⟩
    exact ⟨once, code.1 ⟨_, resolved⟩, symbols.1 ⟨_, named⟩⟩

/-- Layout computes the answer. -/
theorem ofRoutines_eq_ok_iff (short : (routines.flatMap Routine.code).length < 2147483648) {image : Image} :
    Image.ofRoutines routines = .ok image ↔
      Once (routines.flatMap Routine.code) ∧ ResolvesTo routines image := by
  -- With every label in one place the table says where labels are placed, and all of it can be said of it.
  have same : ∀ once : Once (routines.flatMap Routine.code),
      Listed (positions 0 (routines.flatMap Routine.code)) = PlacedAt (routines.flatMap Routine.code) :=
    fun once => funext fun label => funext fun position => propext (lookup_positions_iff once)
  have bound : Once (routines.flatMap Routine.code) → ∀ label position,
      Listed (positions 0 (routines.flatMap Routine.code)) label position → position < 2147483648 :=
    fun once label position found => Nat.lt_of_le_of_lt ((lookup_positions_iff once).1 found).le short
  have unrepeated : repeated? [] ((positions 0 (routines.flatMap Routine.code)).map Prod.fst) = none ↔
      Once (routines.flatMap Routine.code) := by
    rw [repeated?_eq_none_iff, positions_fst, ← nodup_marks_iff]
    exact and_iff_left fun _ _ => List.not_mem_nil
  constructor
  · intro ok
    unfold Image.ofRoutines at ok
    cases repeats : repeated? [] ((positions 0 (routines.flatMap Routine.code)).map Prod.fst) with
    | some label =>
      simp only [repeats] at ok
      contradiction
    | none =>
      have once := unrepeated.1 repeats
      simp only [repeats] at ok
      obtain ⟨placed, replaced, ok⟩ := bind_eq_ok_iff.1 ok
      obtain ⟨names, known, ⟨⟩⟩ := bind_eq_ok_iff.1 ok
      have resolved := (instructions_eq_ok_iff (bound once)).1 replaced
      have named := (symbols_eq_ok_iff (bound once)).1 known
      rw [same once] at resolved named
      exact ⟨once, resolved, named⟩
  · rintro ⟨once, resolved, named⟩
    rw [← same once] at resolved named
    have replaced := (instructions_eq_ok_iff (bound once)).2 resolved
    have known := (symbols_eq_ok_iff (bound once)).2 named
    unfold kept at replaced
    unfold Image.ofRoutines
    simp only [unrepeated.2 once, replaced, known]
    rfl

/-- From the position of a label on, an image has what is kept from the mark on. -/
theorem ResolvesTo.drop {image : Image} (h : ResolvesTo routines image) {front back : List Instr} {i : Instr}
    (split : routines.flatMap Routine.code = front ++ i :: back) :
    List.Forall₂ (Resolves (PlacedAt (routines.flatMap Routine.code))) (kept (i :: back))
      (image.code.drop (room front)) := by
  have whole : kept (routines.flatMap Routine.code) = kept front ++ kept (i :: back) := by
    rw [split]
    exact List.filter_append ..
  have count : (kept front).length = room front := by
    unfold kept room
    rw [List.countP_eq_length_filter]
  have parts := List.forall₂_drop (room front) h.code
  rwa [whole, ← count, List.drop_left, count] at parts

end Layout

open Layout

/-- Routines of fewer than `2147483648` instructions are laid out exactly when no label is placed twice and
every label is placed that is an operand of an instruction that is kept or the entry of a routine. The image
has the instructions that are kept in their order, with every label replaced by the number of kept ones in
front of its mark, which is where the image has the first one kept from the mark on; and it has the symbol of
each routine in their order. There is no other image like this. -/
theorem Image.ofRoutines_exact (routines : List Routine)
    (short : (routines.flatMap Routine.code).length < 2147483648) :
    ((∃ image, Image.ofRoutines routines = .ok image) ↔ Resolvable routines) ∧
    ∀ image, (Image.ofRoutines routines = .ok image ↔
        Resolvable routines ∧ ResolvesTo routines image) ∧
      (Image.ofRoutines routines = .ok image → ∀ front i back,
        routines.flatMap Routine.code = front ++ i :: back →
          List.Forall₂ (Resolves (PlacedAt (routines.flatMap Routine.code))) (kept (i :: back))
            (image.code.drop (room front))) := by
  have answer : ∀ {image}, Image.ofRoutines routines = .ok image ↔
      Resolvable routines ∧ ResolvesTo routines image := by
    intro image
    rw [ofRoutines_eq_ok_iff short, resolvable_iff short]
    exact ⟨fun ⟨once, resolved⟩ => ⟨⟨once, image, resolved⟩, resolved⟩,
      fun ⟨⟨once, _⟩, resolved⟩ => ⟨once, resolved⟩⟩
  refine ⟨?_, fun image => ⟨answer, fun ok front i back split => (answer.1 ok).2.drop split⟩⟩
  constructor
  · rintro ⟨image, ok⟩
    exact (answer.1 ok).1
  · intro resolvable
    obtain ⟨-, image, resolved⟩ := (resolvable_iff short).1 resolvable
    exact ⟨image, answer.2 ⟨resolvable, resolved⟩⟩

/-- Two routines that share their labels: the first one jumps forward to a label behind all instructions,
names a label that is not placed in a marker, and marks an instruction that is kept; the second one has its
entry in the first. -/
def tangled : List Routine :=
  [⟨"f", ⟨0⟩, [.marker ⟨0⟩, .marker ⟨1⟩, .constant (.label ⟨3⟩), ⟨.noop, some (.label ⟨9⟩), none, none⟩,
    ⟨.add, none, none, some ⟨2⟩⟩]⟩,
   ⟨"g", ⟨2⟩, [.constant (.label ⟨2⟩), .constant (.label ⟨1⟩), .marker ⟨3⟩]⟩]

/-- The label behind all instructions is at position 4, and both first labels are at 0. -/
theorem Image.ofRoutines_exact_tangled : (tangled.flatMap Routine.code).length < 2147483648 ∧
    Resolvable tangled ∧ ResolvesTo tangled
      ⟨[⟨.const, some 4, none⟩, ⟨.add, none, none⟩, ⟨.const, some 1, none⟩, ⟨.const, some 0, none⟩],
        [⟨"f", 0⟩, ⟨"g", 1⟩]⟩ := by
  have short : (tangled.flatMap Routine.code).length < 2147483648 := by decide
  obtain ⟨-, exact⟩ := Image.ofRoutines_exact tangled short
  exact ⟨short, (exact _).1.1 (by rfl)⟩

end GridStack
