import GridStack.Proofs.Draft.Labels
import GridStack.Proofs.Image.Placement

/-!
# When code can be laid out

Routines are laid out when every label stands once in their code and every label that is named stands there
(`Image.exists_ofRoutines`). Each of the three causes for which a layout fails is excluded by one condition.
-/

namespace GridStack

namespace Layout

/-- The labels that have a position are those that the code places. -/
theorem positions_fst (position : Nat) (code : List Instr) :
    (positions position code).map Prod.fst = Code.marks code := by
  induction code generalizing position with
  | nil => rfl
  | cons instr code ih =>
    cases marked : instr.mark with
    | none =>
      rw [Code.marks_cons_of_none marked, ← ih (advance position instr)]
      simp only [positions, marked]
    | some label =>
      have placed : Code.marks (instr :: code) = label :: Code.marks code :=
        List.filterMap_cons_some marked
      rw [placed, ← ih (advance position instr)]
      simp only [positions, marked, List.map_cons]

variable {table : Positions}

/-- A label that has a position is found. -/
theorem exists_lookup {label : Label} (h : label ∈ table.map Prod.fst) :
    ∃ position, table.lookup label = some position := by
  rw [← Option.isSome_iff_exists, List.lookup_isSome_iff]
  obtain ⟨pair, mem, eq⟩ := List.mem_map.1 h
  exact ⟨pair, mem, beq_iff_eq.2 eq.symm⟩

/-- An operand can be replaced when its label has a position. -/
theorem exists_operand? {x : Option Operand}
    (h : ∀ label, Operand.target? x = some label → label ∈ table.map Prod.fst) :
    ∃ value, operand? table x = .ok value := by
  match x with
  | none => exact ⟨none, rfl⟩
  | some (.imm n) => exact ⟨some n, rfl⟩
  | some (.label target) =>
    obtain ⟨position, found⟩ := exists_lookup (h target rfl)
    exact ⟨some (Int32.ofNat position), by simp only [operand?, operand, found]; rfl⟩

/-- An instruction can be replaced when all labels that it names have positions. -/
theorem exists_instruction {i : Instr} (h : ∀ label ∈ i.targets, label ∈ table.map Prod.fst) :
    ∃ placed, instruction table i = .ok placed := by
  have named : ∀ x ∈ [i.a, i.b], ∀ label, Operand.target? x = some label → label ∈ table.map Prod.fst :=
    fun x mem label names => h label (List.mem_filterMap.2 ⟨x, mem, names⟩)
  obtain ⟨a, first⟩ := exists_operand? (named i.a List.mem_cons_self)
  obtain ⟨b, second⟩ := exists_operand? (named i.b (List.mem_cons_of_mem _ List.mem_cons_self))
  unfold instruction
  rw [first, second]
  exact ⟨⟨i.op, a, b⟩, rfl⟩

/-- Code can be replaced when all labels that it names have positions. -/
theorem exists_instructions {code : List Instr}
    (h : ∀ i ∈ code, ∀ label ∈ i.targets, label ∈ table.map Prod.fst) :
    ∃ placed, instructions table code = .ok placed := by
  induction code with
  | nil => exact ⟨[], rfl⟩
  | cons i code ih =>
    obtain ⟨own, others⟩ := List.forall_mem_cons.1 h
    obtain ⟨first, replaced⟩ := exists_instruction own
    obtain ⟨rest, replaced'⟩ := ih others
    unfold instructions
    rw [replaced, replaced']
    exact ⟨first :: rest, rfl⟩

/-- Routines have symbols when their entries have positions. -/
theorem exists_symbols {routines : List Routine} (h : ∀ r ∈ routines, r.entry ∈ table.map Prod.fst) :
    ∃ symbols, Layout.symbols table routines = .ok symbols := by
  induction routines with
  | nil => exact ⟨[], rfl⟩
  | cons r rest ih =>
    obtain ⟨own, others⟩ := List.forall_mem_cons.1 h
    obtain ⟨position, found⟩ := exists_lookup own
    obtain ⟨symbols, named⟩ := ih others
    unfold Layout.symbols
    rw [found, named]
    exact ⟨⟨r.name, UInt32.ofNat position⟩ :: symbols, rfl⟩

end Layout

/-- Routines can be laid out when each label is placed once and all that are named are placed. -/
theorem Image.exists_ofRoutines {routines : List Routine}
    (nodup : (Code.marks (routines.flatMap Routine.code)).Nodup)
    (named : ∀ i ∈ routines.flatMap Routine.code, ∀ label ∈ i.targets,
      label ∈ Code.marks (routines.flatMap Routine.code))
    (entries : ∀ r ∈ routines, r.entry ∈ Code.marks (routines.flatMap Routine.code)) :
    ∃ image, Image.ofRoutines routines = .ok image := by
  -- The table of positions has exactly the labels that are placed, each once.
  rw [← Layout.positions_fst 0] at nodup entries
  have once := (Layout.repeated?_eq_none_iff [] _).2 ⟨nodup, fun _ _ => List.not_mem_nil⟩
  obtain ⟨code, replaced⟩ : ∃ placed,
      Layout.instructions (Layout.positions 0 (routines.flatMap Routine.code))
        ((routines.flatMap Routine.code).filter fun instr => !instr.isMarker) = .ok placed := by
    refine Layout.exists_instructions fun i mem => ?_
    rw [Layout.positions_fst]
    exact named i (List.mem_filter.1 mem).1
  obtain ⟨symbols, known⟩ := Layout.exists_symbols entries
  unfold Image.ofRoutines
  simp only [once, replaced, known]
  exact ⟨⟨code, symbols⟩, rfl⟩

end GridStack
