import GridStack.Proofs.Image.Idioms

/-!
# Instructions at their places

Every instruction of an image stands in a segment, and there in an idiom of the function whose code the
segment is: `Linked.Spot` says so of a position. What an instruction is tells which idiom it belongs to,
and by that what stands in front of it and behind it (`Spot.of_label`, `Spot.of_jumpIf`, `Spot.of_popPc`).

A label of a function is placed in the segment of the function, in front of its last two instructions, and
any other label that is named is the entry of a function that is called. Which of the two it is shows in
its number.
-/

namespace GridStack

open Layout (room)

namespace Idiom

variable {address : Label → Int32} {own entry : Label → Prop} {q : Idiom} {m : Nat}

/-- An idiom of which nothing is asked but that a single instruction leaves control and frames alone. -/
def Plain : Idiom → Prop
  | word i => i.Word
  | _ => True

/-- An idiom inside a function is plain. -/
theorem Inner.plain (h : q.Inner own entry) : q.Plain := by
  cases q with
  | word i => exact h
  | jump target => exact trivial
  | branch target => exact trivial
  | back resume => exact trivial
  | frame offset => exact trivial
  | halt => exact trivial
  | leave => exact trivial

/-- A single instruction stands at the beginning of its idiom. -/
theorem of_word {i j : Instr} (found : (word j).code[m]? = some i) : m = 0 ∧ j = i := by
  rcases m with _ | m
  · exact ⟨rfl, Option.some.inj found⟩
  · cases found

/-- A label is named at the beginning of a jump, of a conditional jump or of a call. -/
theorem of_targets {i : Instr} {label : Label} (plain : q.Plain) (found : q.code[m]? = some i)
    (named : label ∈ i.targets) :
    m = 0 ∧ i = .constant (.label label) ∧ (q = jump label ∨ q = branch label ∨ q = back label) := by
  -- The idioms are short: each of their positions is looked at, and what does not fit is no instruction.
  cases q with
  | word j =>
    obtain ⟨rfl, rfl⟩ := of_word found
    cases plain <;> cases named
  | jump target =>
    rcases m with _ | _ | m <;> cases found
    · obtain rfl := List.mem_singleton.1 named
      exact ⟨rfl, rfl, .inl rfl⟩
    · cases named
  | branch target =>
    rcases m with _ | _ | _ | m <;> cases found
    · obtain rfl := List.mem_singleton.1 named
      exact ⟨rfl, rfl, .inr (.inl rfl)⟩
    · cases named
    · cases named
  | back resume =>
    rcases m with _ | _ | m <;> cases found
    · obtain rfl := List.mem_singleton.1 named
      exact ⟨rfl, rfl, .inr (.inr rfl)⟩
    · cases named
  | frame offset => rcases m with _ | _ | _ | _ | m <;> cases found <;> cases named
  | halt => rcases m with _ | _ | m <;> cases found <;> cases named
  | leave => rcases m with _ | _ | m <;> cases found <;> cases named

/-- The machine goes on or not at the end of a conditional jump only. -/
theorem of_jumpIf {i : Instr} (plain : q.Plain) (found : q.code[m]? = some i) (op : i.op = .jumpIf) :
    m = 2 ∧ ∃ target, q = branch target := by
  cases q with
  | word j =>
    obtain ⟨rfl, rfl⟩ := of_word found
    cases plain with
    | plain bare effect =>
      obtain rfl : _ = Opcode.jumpIf := op
      contradiction
    | const number => cases op
    | push free => cases op
    | pop free => cases op
    | copy free free' => cases op
  | jump target => rcases m with _ | _ | m <;> cases found <;> cases op
  | branch target =>
    rcases m with _ | _ | _ | m <;> cases found <;> cases op
    exact ⟨rfl, target, rfl⟩
  | back resume => rcases m with _ | _ | m <;> cases found <;> cases op
  | frame offset => rcases m with _ | _ | _ | _ | m <;> cases found <;> cases op
  | halt => rcases m with _ | _ | m <;> cases found <;> cases op
  | leave => rcases m with _ | _ | m <;> cases found <;> cases op

/-- The program counter is set at the end of a jump and at the end of a function only. -/
theorem of_popPc {i : Instr} (plain : q.Plain) (found : q.code[m]? = some i)
    (pops : Layout.resolve address i = ⟨.pop, some Register.pc, none⟩) :
    m = 1 ∧ ((∃ target, q = jump target) ∨ q = halt ∨ q = leave) := by
  have op : i.op = .pop := congrArg Instruction.op pops
  have register : i.a.map (Layout.resolved address) = some Register.pc := congrArg Instruction.a pops
  cases q with
  | word j =>
    obtain ⟨rfl, rfl⟩ := of_word found
    cases plain with
    | plain bare effect =>
      obtain rfl : _ = Opcode.pop := op
      contradiction
    | const number => cases op
    | push free => cases op
    | pop free =>
      -- A single pop is one into another register.
      exact absurd (Option.some.inj register) free.1
    | copy free free' => cases op
  | jump target =>
    rcases m with _ | _ | m <;> cases found <;> cases op
    exact ⟨rfl, .inl ⟨target, rfl⟩⟩
  | branch target =>
    rcases m with _ | _ | _ | m <;> cases found <;> cases op
    cases register
  | back resume => rcases m with _ | _ | m <;> cases found <;> cases op
  | frame offset =>
    rcases m with _ | _ | _ | _ | m <;> cases found <;> cases op
    cases register
  | halt =>
    rcases m with _ | _ | m <;> cases found <;> cases op
    exact ⟨rfl, .inr (.inl rfl)⟩
  | leave =>
    rcases m with _ | _ | m <;> cases found <;> cases op
    · cases register
    · exact ⟨rfl, .inr (.inr rfl)⟩

end Idiom

/-- The code of a function places the labels that it names, other than entries, in front of its end. -/
theorem FunctionCode.exists_mark {site : Site} {next : Nat} {entry : Label} {block : List Instr}
    (h : FunctionCode site next entry block) {i : Instr} {label : Label} (mem : i ∈ block)
    (named : label ∈ i.targets)
    (inner : ∀ name callee, site.table.find? name = some callee → label ≠ callee.entry) :
    ∃ front instr back, block = front ++ instr :: back ∧ instr.mark = some label ∧
      room front + 2 ≤ room block := by
  obtain ⟨tidy, marks⟩ := functionCode_labels h
  have placed : label ∈ Code.marks block := by
    rw [marks.mem_iff, List.mem_cons, List.mem_cons, Label.mem_range]
    rcases (tidy i mem).2 label named with range | rfl | ⟨name, callee, found, same⟩
    · exact .inr (.inr range)
    · exact .inr (.inl rfl)
    · exact absurd same (inner name callee found)
  obtain @⟨block, body⟩ := h
  -- No label is placed by the end of the function.
  have split : [Instr.marker entry] ++ (Code.take site ++ (block ++ ([.marker site.exit] ++ Code.leave site)))
      = ([.marker entry] ++ (Code.take site ++ (block ++ [.marker site.exit]))) ++ Code.leave site := by
    simp only [List.append_assoc]
  rw [split] at placed ⊢
  rw [Code.marks_append, (Code.bare_leave site).marks_eq_nil, List.append_nil] at placed
  obtain ⟨instr, mem, mark⟩ := List.mem_filterMap.1 placed
  obtain ⟨front, back, eq⟩ := List.append_of_mem mem
  refine ⟨front, instr, back ++ Code.leave site, ?_, mark, ?_⟩
  · rw [eq, List.append_assoc, List.cons_append]
  · rw [eq, Layout.room_append, Layout.room_append, Code.room_leave]
    omega

namespace Program.Linked

variable {program : Program} {options : Options} {image : Image} {l : Linked program options image}

/-- The variables of a function that passed the check have registers, and the parameters are variables. -/
theorem few_of_mem (l : Linked program options image) {f : CheckedFunction} (mem : f ∈ l.functions) :
    f.vars.length ≤ maxVariables ∧ f.params ≤ f.vars.length := by
  obtain ⟨decl, -, declared⟩ := exists_declared l.accepts.pairs mem
  exact ⟨declared.fit.few, declared.params_le⟩

namespace Part

variable {s : Segment} (p : l.Part s)

/-- What stays the same while the code of the function is generated. -/
def site : Site :=
  ⟨p.f, l.table, options.fuse, ⟨p.exit⟩⟩

/-- The function calls one of a name. -/
def Calls (name : String) : Prop :=
  ∃ excess, (name, excess) ∈ Stmt.calleesOfAll p.f.body

/-- The code of a function is short, as the whole image is. -/
theorem room_lt : room p.routine.code < 2147483648 := by
  have short : image.code.length < 2147483648 := l.short
  rw [l.length_eq, p.code_split, Layout.room_append, Layout.room_append] at short
  omega

/-- The end of a segment is not behind that of the image. -/
theorem stop_le (p : l.Part s) : s.stop ≤ image.code.length := by
  rw [p.stop_eq, p.start_eq, l.length_eq, p.code_split, Layout.room_append, Layout.room_append]
  omega

/-- A segment has room for its end. -/
theorem start_lt (p : l.Part s) : s.start < s.stop := by
  have some_room := p.code.some_room
  rw [p.stop_eq]
  omega

/-- What is kept of the code is a sequence of idioms. -/
theorem exists_idioms : ∃ ps, Code.kept p.routine.code = (ps ++ [p.site.ending]).flatMap Idiom.code ∧
    Idiom.Framed ps ∧ ∀ q ∈ ps, q.Inner p.site.Own (p.site.Entry p.Calls) := by
  obtain ⟨few, params_le⟩ := l.few_of_mem p.mem
  exact FunctionCode.composed few params_le (Nat.le_succ _) p.room_lt p.code

/-- A label of the function that is named stands in the segment, and not at its end. -/
theorem own_position {i : Instr} {label : Label} (mem : i ∈ p.routine.code) (named : label ∈ i.targets)
    (own : p.site.Own label) : ∃ t, l.object.position? label = some t ∧ s.Covers t := by
  -- It is no entry, as all of these have smaller numbers.
  have inner : ∀ name callee, l.table.find? name = some callee → label ≠ callee.entry := by
    rintro name callee found rfl
    have entry := FunctionTable.entry_lt found
    have behind := p.behind
    have own : p.exit ≤ callee.entry.id := own
    omega
  obtain ⟨front, instr, back, split, mark, low⟩ := p.code.exists_mark mem named inner
  refine ⟨_, p.position_eq split mark, Nat.le_add_right _ _, ?_⟩
  rw [p.stop_eq]
  omega

/-- An entry is where the segment of a function begins that is called. -/
theorem entry_position {label : Label} (entry : p.site.Entry p.Calls label) :
    ∃ g ∈ image.segments, p.Calls g.name ∧ l.object.position? label = some g.start := by
  obtain ⟨name, callee, called, found, rfl⟩ := entry
  obtain ⟨g, mem, rfl⟩ := l.exists_segment found
  obtain ⟨p'⟩ := l.exists_part mem
  obtain rfl : callee = p'.callee := Option.some.inj (found.symm.trans p'.found)
  exact ⟨g, mem, called, p'.entry_eq⟩

/-- The function is `main` exactly when it has its name. -/
theorem isMain_iff : p.f.isMain = true ↔ s.name = mainName := by
  rw [← p.named]
  exact CheckedFunction.isMain_iff

/-- Of all functions only `main` stops the machine at its end. -/
theorem ending_eq : p.site.ending = if s.name = mainName then .halt else .leave := by
  by_cases main : s.name = mainName
  · rw [if_pos main]
    exact if_pos (p.isMain_iff.2 main)
  · rw [if_neg main]
    exact if_neg (mt p.isMain_iff.1 main)

end Part

/-- What is kept of a routine is a sequence of idioms inside a function, and its end. -/
theorem exists_routine_idioms (l : Linked program options image) {routine : Routine}
    (mem : routine ∈ l.object.routines) : ∃ ps own entry, Idiom.Framed ps ∧ (∀ q ∈ ps, q.Inner own entry) ∧
      Code.kept routine.code
        = (ps ++ [if routine.name = mainName then Idiom.halt else Idiom.leave]).flatMap Idiom.code := by
  obtain ⟨before, after, split⟩ := List.append_of_mem mem
  obtain ⟨p, same⟩ := l.exists_part_of_split split
  obtain ⟨ps, code_eq, framed, inner⟩ := p.exists_idioms
  rw [p.ending_eq, same] at code_eq
  exact ⟨ps, _, _, framed, inner, code_eq⟩

/-- A position of the image, with the idiom that stands there. -/
structure Spot (l : Linked program options image) (k : Nat) where
  s : Segment
  mem : s ∈ image.segments
  part : l.Part s
  idiom : Idiom
  /-- The position of the first instruction of the idiom. -/
  first : Nat
  low : s.start ≤ first
  high : first + idiom.code.length ≤ s.stop
  m : Nat
  here : k = first + m
  inside : m < idiom.code.length
  /-- Only the last idiom ends the function. -/
  kind : (idiom.Inner part.site.Own (part.site.Entry part.Calls) ∧ first + idiom.code.length < s.stop) ∨
    (idiom = part.site.ending ∧ first + idiom.code.length = s.stop)
  kept : ∀ n < idiom.code.length, (Code.kept l.object.code)[first + n]? = idiom.code[n]?

/-- Every position of the code has an idiom. -/
theorem exists_spot (l : Linked program options image) {k : Nat} (inside : k < image.code.length) :
    Nonempty (l.Spot k) := by
  obtain ⟨s, mem, covers⟩ := l.exists_covers inside
  obtain ⟨p⟩ := l.exists_part mem
  obtain ⟨j, in_code, rfl⟩ := p.exists_of_covers covers
  obtain ⟨ps, code_eq, -, inner⟩ := p.exists_idioms
  have room_eq : room p.routine.code = ((ps ++ [p.site.ending]).flatMap Idiom.code).length := by
    rw [← code_eq, Code.length_kept]
  obtain ⟨i, found⟩ : ∃ i, ((ps ++ [p.site.ending]).flatMap Idiom.code)[j]? = some i :=
    ⟨_, List.getElem?_eq_getElem (room_eq ▸ in_code)⟩
  obtain ⟨before, q, after, m, split, rfl, found'⟩ := Idiom.exists_idiom found
  have m_lt : m < q.code.length := (List.getElem?_eq_some_iff.1 found').1
  -- Around the idiom the code of the function is cut in three, and the segment with it.
  have parts : Code.kept p.routine.code
      = before.flatMap Idiom.code ++ (q.code ++ after.flatMap Idiom.code) := by
    rw [code_eq, split, List.flatMap_append, List.flatMap_cons]
  have stop : s.stop = s.start + (before.flatMap Idiom.code).length + q.code.length
      + (after.flatMap Idiom.code).length := by
    have lengths := congrArg List.length parts
    rw [Code.length_kept, List.length_append, List.length_append] at lengths
    rw [p.stop_eq]
    omega
  refine ⟨s, mem, p, q, s.start + (before.flatMap Idiom.code).length, Nat.le_add_right _ _, by omega, m,
    by omega, m_lt, ?_, fun n n_lt => ?_⟩
  · -- The last idiom is the end of the function, and all others are inside it.
    rcases List.eq_nil_or_concat' after with rfl | ⟨init, last, rfl⟩
    · obtain ⟨-, same⟩ := List.append_inj' split rfl
      refine .inr ⟨(List.singleton_inj.1 same).symm, ?_⟩
      rw [stop, List.flatMap_nil, List.length_nil, Nat.add_zero]
    · rw [← List.cons_append, ← List.append_assoc] at split
      obtain ⟨same, same'⟩ := List.append_inj' split rfl
      refine .inl ⟨inner q (same ▸ List.mem_append_right before List.mem_cons_self), ?_⟩
      rw [← List.singleton_inj.1 same', List.flatMap_append, List.flatMap_singleton, List.length_append,
        Site.length_ending] at stop
      omega
  · have in_code' : (before.flatMap Idiom.code).length + n < room p.routine.code := by
      have stop' := p.stop_eq
      omega
    rw [Nat.add_assoc, p.kept_getElem? in_code', parts, List.getElem?_append_right (Nat.le_add_right _ _),
      Nat.add_sub_cancel_left, List.getElem?_append_left n_lt]

namespace Spot

variable {k : Nat} (p : l.Spot k)

/-- The idiom is plain. -/
theorem plain : p.idiom.Plain := by
  rcases p.kind with ⟨inner, -⟩ | ⟨ending, -⟩
  · exact inner.plain
  · rw [ending, p.part.ending_eq]
    split <;> exact trivial

/-- The instructions of the idiom stand in the image. -/
theorem code_getElem? {n : Nat} (inside : n < p.idiom.code.length) :
    image.code[p.first + n]? = (p.idiom.code[n]?).map (Layout.resolve l.address) := by
  rw [l.code_eq, List.getElem?_map, p.kept n inside]

/-- The segment covers the idiom. -/
theorem covers {n : Nat} (inside : n < p.idiom.code.length) : p.s.Covers (p.first + n) := by
  have low := p.low
  have high := p.high
  exact ⟨by omega, by omega⟩

/-- The segment covers the position. -/
theorem covers_here : p.s.Covers k := by
  have covers := p.covers p.inside
  rwa [← p.here] at covers

/-- The instruction that is drafted here. -/
theorem exists_instr : ∃ i, p.idiom.code[p.m]? = some i ∧ (Code.kept l.object.code)[k]? = some i ∧
    image.code[k]? = some (Layout.resolve l.address i) := by
  have found := List.getElem?_eq_getElem p.inside
  have kept := p.kept p.m p.inside
  rw [← p.here, found] at kept
  refine ⟨_, found, kept, ?_⟩
  rw [l.code_eq, List.getElem?_map, kept]
  rfl

/-- An instruction of the idiom is one of the function. -/
theorem mem_code {n : Nat} {i : Instr} (found : p.idiom.code[n]? = some i) : i ∈ p.part.routine.code := by
  have inside : n < p.idiom.code.length := (List.getElem?_eq_some_iff.1 found).1
  obtain ⟨j, in_code, eq⟩ := p.part.exists_of_covers (p.covers inside)
  have kept := p.kept n inside
  rw [found, eq, p.part.kept_getElem? in_code] at kept
  exact Code.mem_of_mem_kept (List.mem_of_getElem? kept)

/-- A label is named by a constant, at the beginning of a jump, of a conditional jump or of a call. -/
theorem of_targets {i : Instr} {label : Label} (kept : (Code.kept l.object.code)[k]? = some i)
    (named : label ∈ i.targets) : p.m = 0 ∧ i = .constant (.label label) ∧
      (p.idiom = .jump label ∨ p.idiom = .branch label ∨ p.idiom = .back label) := by
  obtain ⟨i', found, kept', -⟩ := p.exists_instr
  obtain rfl : i' = i := Option.some.inj (kept'.symm.trans kept)
  exact Idiom.of_targets p.plain found named

/-- A label at a position is the operand of a constant. -/
theorem of_label {label : Label} (h : l.object.labelAt? k = some label) : p.m = 0 ∧
    image.code[k]? = some ⟨.const, some (l.address label), none⟩ ∧
      (p.idiom = .jump label ∨ p.idiom = .branch label ∨ p.idiom = .back label) := by
  obtain ⟨i, kept, named⟩ := Option.bind_eq_some_iff.1 h
  obtain ⟨first, rfl, idiom⟩ := p.of_targets kept (List.mem_of_head? named)
  refine ⟨first, ?_, idiom⟩
  rw [l.code_eq, List.getElem?_map, kept]
  rfl

/-- A conditional jump is the end of its idiom. -/
theorem of_jumpIf {a b : Option Int32} (h : image.code[k]? = some ⟨.jumpIf, a, b⟩) :
    p.m = 2 ∧ ∃ target, p.idiom = .branch target := by
  obtain ⟨i, found, -, code⟩ := p.exists_instr
  exact Idiom.of_jumpIf p.plain found (congrArg Instruction.op (Option.some.inj (code.symm.trans h)))

/-- A pop into the program counter is the end of a jump or of a function. -/
theorem of_popPc (h : image.code[k]? = some ⟨.pop, some Register.pc, none⟩) :
    p.m = 1 ∧ ((∃ target, p.idiom = .jump target) ∨ p.idiom = .halt ∨ p.idiom = .leave) := by
  obtain ⟨i, found, -, code⟩ := p.exists_instr
  exact Idiom.of_popPc p.plain found (Option.some.inj (code.symm.trans h))

/-- An idiom that does not end a function is inside one. -/
theorem inner (other : p.idiom ≠ .halt) (other' : p.idiom ≠ .leave) :
    p.idiom.Inner p.part.site.Own (p.part.site.Entry p.part.Calls) ∧
      p.first + p.idiom.code.length < p.s.stop := by
  rcases p.kind with inside | ⟨ending, -⟩
  · exact inside
  · rw [p.part.ending_eq] at ending
    split at ending
    · exact absurd ending other
    · exact absurd ending other'

/-- The label that an idiom names is one of the function, unless a jump goes to the entry of a function that
is called. -/
theorem label_cases {label : Label}
    (idiom : p.idiom = .jump label ∨ p.idiom = .branch label ∨ p.idiom = .back label) :
    p.idiom.code[0]? = some (.constant (.label label)) ∧
      (p.part.site.Own label ∨ p.idiom = .jump label ∧ p.part.site.Entry p.part.Calls label) := by
  -- The ends of functions name no labels.
  have inside : p.idiom.Inner p.part.site.Own (p.part.site.Entry p.part.Calls) := by
    refine (p.inner ?_ ?_).1 <;> rcases idiom with eq | eq | eq <;> rw [eq] <;> nofun
  rcases idiom with eq | eq | eq <;> rw [eq] at inside ⊢
  · exact ⟨rfl, inside.imp_right fun entry => ⟨rfl, entry⟩⟩
  · exact ⟨rfl, .inl inside⟩
  · exact ⟨rfl, .inl inside⟩

/-- The label that an idiom names is the operand at its first position. -/
theorem labelAt?_first {label : Label} (found : p.idiom.code[0]? = some (.constant (.label label))) :
    l.object.labelAt? p.first = some label := by
  have kept := p.kept 0 (List.getElem?_eq_some_iff.1 found).1
  rw [Nat.add_zero, found] at kept
  rw [Object.labelAt?, kept]
  rfl

/-- The idiom that ends a function stands at the end of the segment, of `main` or of another function. -/
theorem ending (last : p.idiom = .halt ∨ p.idiom = .leave) :
    p.first + 2 = p.s.stop ∧ (p.idiom = .halt ↔ p.s.name = mainName) := by
  rcases p.kind with ⟨inside, -⟩ | ⟨ending, stop⟩
  · rcases last with eq | eq <;> rw [eq] at inside <;> exact inside.elim
  · rw [ending, Site.length_ending] at stop
    refine ⟨stop, ?_⟩
    rw [ending, p.part.ending_eq]
    by_cases main : p.s.name = mainName
    · rw [if_pos main]
      exact ⟨fun _ => main, fun _ => rfl⟩
    · rw [if_neg main]
      exact ⟨fun eq => (nomatch eq), fun named => absurd named main⟩

/-- The position of a label that the function has taken, named by the idiom. -/
theorem own_position {n : Nat} {label : Label} (found : p.idiom.code[n]? = some (.constant (.label label)))
    (own : p.part.site.Own label) : ∃ t, l.object.position? label = some t ∧ p.s.Covers t :=
  p.part.own_position (p.mem_code found) List.mem_cons_self own

end Spot

/-- Every label that is named has a position, which is that of an instruction. -/
theorem exists_position {k : Nat} {label : Label} (h : l.object.labelAt? k = some label) :
    ∃ t, l.object.position? label = some t ∧ t < image.code.length := by
  have inside : k < image.code.length := by
    unfold Object.labelAt? at h
    obtain ⟨i, found, -⟩ := Option.bind_eq_some_iff.1 h
    rw [l.length_eq, ← Code.length_kept]
    exact (List.getElem?_eq_some_iff.1 found).1
  obtain ⟨p⟩ := l.exists_spot inside
  obtain ⟨-, -, idiom⟩ := p.of_label h
  obtain ⟨found, own | ⟨-, entry⟩⟩ := p.label_cases idiom
  · obtain ⟨t, placed, covers⟩ := p.own_position found own
    exact ⟨t, placed, Nat.lt_of_lt_of_le covers.2 p.part.stop_le⟩
  · -- An entry is the beginning of another segment, which is not empty.
    obtain ⟨g, mem, -, placed⟩ := p.part.entry_position entry
    obtain ⟨q⟩ := l.exists_part mem
    exact ⟨g.start, placed, Nat.lt_of_lt_of_le q.start_lt q.stop_le⟩

end Program.Linked

end GridStack
