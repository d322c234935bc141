import GridStack.Proofs.Draft.Stored

/-!
# Labels in the code of a tree

Generation takes the labels of a tree from a range of numbers and places each of them once. A jump inside
the code of a tree goes to a label of its own range, to the end of the function, or to the entry of a
function that is called; `Labelled` says both of a block of code. The proofs follow the relations between
trees and code: a rule of theirs places the labels that the tree itself takes, and the ranges of the parts
lie side by side behind them.
-/

namespace GridStack

/-- The label that an operand names, if it names one. -/
def Operand.target? : Option Operand → Option Label
  | some (.label target) => some target
  | _ => none

/-- The labels that the operands of an instruction name. -/
def Instr.targets (i : Instr) : List Label :=
  [i.a, i.b].filterMap Operand.target?

/-- An instruction that places a label only when it does nothing else, and that names only some labels. -/
def Instr.Tidy (may : Label → Prop) (i : Instr) : Prop :=
  (i.mark ≠ none → i.op = .noop) ∧ ∀ label ∈ i.targets, may label

/-- Other labels may be named as well. -/
theorem Instr.Tidy.mono {may may' : Label → Prop} {i : Instr} (h : i.Tidy may)
    (imp : ∀ label, may label → may' label) : i.Tidy may' :=
  ⟨h.1, fun label mem => imp label (h.2 label mem)⟩

namespace Code

/-- The labels that code places, in their order. -/
def marks (code : List Instr) : List Label :=
  code.filterMap Instr.mark

variable {front back code : List Instr} {label : Label} {n : Nat}

/-- Where there is no code there are no markers. -/
@[simp] theorem marks_nil : marks [] = [] := rfl

/-- The labels of two pieces of code. -/
@[simp] theorem marks_append : marks (front ++ back) = marks front ++ marks back :=
  List.filterMap_append

/-- An instruction that places no label. -/
@[simp] theorem marks_cons_of_none {i : Instr} (h : i.mark = none) : marks (i :: code) = marks code :=
  List.filterMap_cons_none h

/-- A marker places its label. -/
@[simp] theorem marks_marker : marks (.marker label :: code) = label :: marks code :=
  rfl

/-- Code without labels. -/
def Bare (code : List Instr) : Prop :=
  ∀ i ∈ code, i.mark = none ∧ i.targets = []

/-- Whether code has neither markers nor labels can be looked up. -/
instance : Decidable (Bare code) :=
  inferInstanceAs (Decidable (∀ i ∈ code, i.mark = none ∧ i.targets = []))

/-- Code without labels places none. -/
theorem Bare.marks_eq_nil (h : Bare code) : marks code = [] :=
  List.filterMap_eq_nil_iff.2 fun i mem => (h i mem).1

/-- An instruction without labels is tidy. -/
theorem tidy_bare {may : Label → Prop} {i : Instr} (unmarked : i.mark = none) (unnamed : i.targets = []) :
    i.Tidy may :=
  ⟨fun marked => absurd unmarked marked, fun label named => by rw [unnamed] at named; contradiction⟩

/-- Code without labels is tidy. -/
theorem Bare.tidy (h : Bare code) {may : Label → Prop} : ∀ i ∈ code, i.Tidy may :=
  fun i mem => tidy_bare (h i mem).1 (h i mem).2

/-- One instruction without labels. -/
theorem bare_singleton {i : Instr} (unmarked : i.mark = none) (unnamed : i.targets = []) : Bare [i] :=
  List.forall_mem_singleton.2 ⟨unmarked, unnamed⟩

/-- Pushes and pops have no labels. -/
theorem bare_map_imm (op : Opcode) (rs : List Int32) : Bare (rs.map (.imm op)) := by
  intro i mem
  obtain ⟨r, -, rfl⟩ := List.mem_map.1 mem
  exact ⟨rfl, rfl⟩

/-- The code behind the operand of an operator has no labels. -/
theorem bare_unary (op : UnaryOp) : Bare (unary op) := by
  cases op <;> decide

/-- The code behind the operands of an operator has no labels. -/
theorem bare_binary {op : BinaryOp} (h : binary? op = some code) : Bare code := by
  cases op <;> cases h <;> decide

/-- The end of a function has no labels. -/
theorem bare_leave (site : Site) : Bare (leave site) := by
  unfold leave
  split <;> decide

/-- A constant that is the position of a label. -/
theorem tidy_constant {may : Label → Prop} (h : may label) : (Instr.constant (.label label)).Tidy may :=
  ⟨fun marked => absurd rfl marked, fun _ named => List.mem_singleton.1 named ▸ h⟩

/-- A marker names nothing. -/
theorem tidy_marker {may : Label → Prop} : (Instr.marker label).Tidy may :=
  ⟨fun _ => rfl, fun _ named => nomatch named⟩

/-- A jump places no label. -/
@[simp] theorem marks_jump {target : Operand} : marks (jump target) = [] := rfl

/-- A conditional jump places no label. -/
@[simp] theorem marks_jumpIfZero : marks (jumpIfZero label) = [] := rfl

/-- A jump names its target. -/
theorem tidy_jump {may : Label → Prop} (h : may label) : ∀ i ∈ jump (.label label), i.Tidy may :=
  List.forall_mem_cons.2 ⟨tidy_constant h, Bare.tidy (by decide)⟩

/-- A conditional jump names its target. -/
theorem tidy_jumpIfZero {may : Label → Prop} (h : may label) : ∀ i ∈ jumpIfZero label, i.Tidy may :=
  List.forall_mem_cons.2 ⟨tidy_constant h, Bare.tidy (by decide)⟩

end Code

/-- The labels that the code of a function may name without placing them: its end, and the entries of the
functions that can be called. -/
def Site.Outer (site : Site) (label : Label) : Prop :=
  label = site.exit ∨ ∃ name callee, site.table.find? name = some callee ∧ label = callee.entry

/-- The labels of a range. -/
def Label.range (next count : Nat) : List Label :=
  (List.range' next count).map Label.mk

/-- The numbers of a range. -/
theorem Label.mem_range {next count : Nat} {label : Label} :
    label ∈ range next count ↔ next ≤ label.id ∧ label.id < next + count := by
  rw [← List.mem_range'_1]
  constructor
  · intro mem
    obtain ⟨n, inside, rfl⟩ := List.mem_map.1 mem
    exact inside
  · exact fun mem => List.mem_map.2 ⟨label.id, mem, rfl⟩

/-- Ranges that lie side by side. -/
theorem Label.range_append (next count count' : Nat) :
    range next count ++ range (next + count) count' = range next (count + count') := by
  unfold range
  rw [← List.map_append, List.range'_append_1]

/-- Code that takes labels of a range, places each of them once and names no others, except those that are
not its own. -/
structure Labelled (site : Site) (next count : Nat) (code : List Instr) : Prop where
  tidy : ∀ i ∈ code, i.Tidy fun label =>
    (next ≤ label.id ∧ label.id < next + count) ∨ site.Outer label
  marks : (Code.marks code).Perm (Label.range next count)

namespace Labelled

variable {site : Site} {next next' count count' : Nat} {front back code inner : List Instr}

/-- The labels of a wider range may be named as well. -/
theorem within (h : Labelled site next count code) (first : next' ≤ next)
    (last : next + count ≤ next' + count') :
    ∀ i ∈ code, i.Tidy fun label => (next' ≤ label.id ∧ label.id < next' + count') ∨ site.Outer label := by
  refine fun i mem => (h.tidy i mem).mono fun label => Or.imp_left fun range => ?_
  omega

/-- Code without labels. -/
theorem bare (h : Code.Bare code) : Labelled site next 0 code :=
  ⟨h.tidy, by rw [h.marks_eq_nil]; rfl⟩

/-- The ranges of code that stands side by side lie side by side. -/
theorem append (h : Labelled site next count front) (h' : Labelled site (next + count) count' back) :
    Labelled site next (count + count') (front ++ back) := by
  refine ⟨List.forall_mem_append.2 ⟨h.within (by omega) (by omega), h'.within (by omega) (by omega)⟩, ?_⟩
  rw [Code.marks_append, ← Label.range_append]
  exact h.marks.append h'.marks

/-- Code that takes some labels, in front of those of the code in it, and places them around it. -/
theorem enclose (h : Labelled site (next + count) count' inner)
    (tidy : ∀ i ∈ code, i ∈ inner ∨ i.Tidy fun label =>
      (next ≤ label.id ∧ label.id < next + count) ∨ site.Outer label)
    (marks : (Code.marks code).Perm (Label.range next count ++ Code.marks inner)) :
    Labelled site next (count + count') code := by
  constructor
  · intro i mem
    rcases tidy i mem with part | own
    · exact h.within (Nat.le_add_right _ _) (by omega) i part
    · exact own.mono fun label => Or.imp_left fun range => by omega
  · rw [← Label.range_append]
    exact marks.trans (h.marks.append_left _)

end Labelled

variable {site : Site}

section Pieces

variable {next count count' : Nat} {first second block : List Instr}

/-- The labels of the code of a conjunction: its own two are placed behind both operands. -/
theorem Labelled.and (left : Labelled site (next + 2) count first)
    (right : Labelled site (next + 2 + count) count' second) :
    Labelled site next (2 + (count + count'))
      (first ++ (Code.jumpIfZero ⟨next⟩ ++ (second ++ (Code.jump (.label ⟨next + 1⟩) ++
        [.marker ⟨next⟩, .imm .const 0, .marker ⟨next + 1⟩])))) := by
  refine (left.append right).enclose ?_ ?_
  · intro i mem
    simp only [List.mem_append, List.mem_cons, List.not_mem_nil, or_false] at mem ⊢
    rcases mem with mem | mem | mem | mem | rfl | rfl | rfl
    · exact .inl (.inl mem)
    · exact .inr (Code.tidy_jumpIfZero (.inl (by dsimp only; omega)) i mem)
    · exact .inl (.inr mem)
    · exact .inr (Code.tidy_jump (.inl (by dsimp only; omega)) i mem)
    · exact .inr Code.tidy_marker
    · exact .inr (Code.tidy_bare rfl rfl)
    · exact .inr Code.tidy_marker
  · simp only [Code.marks_append, Code.marks_jump, Code.marks_jumpIfZero, List.nil_append]
    rw [← List.append_assoc]
    exact List.perm_append_comm

/-- The labels of the code of a disjunction: one of its own is placed between the operands. -/
theorem Labelled.or (left : Labelled site (next + 2) count first)
    (right : Labelled site (next + 2 + count) count' second) :
    Labelled site next (2 + (count + count'))
      (first ++ (Code.jumpIfZero ⟨next⟩ ++ ([.imm .const 1] ++ (Code.jump (.label ⟨next + 1⟩) ++
        ([.marker ⟨next⟩] ++ (second ++ [.marker ⟨next + 1⟩])))))) := by
  refine (left.append right).enclose ?_ ?_
  · intro i mem
    simp only [List.mem_append, List.mem_cons, List.not_mem_nil, or_false] at mem ⊢
    rcases mem with mem | mem | rfl | mem | rfl | mem | rfl
    · exact .inl (.inl mem)
    · exact .inr (Code.tidy_jumpIfZero (.inl (by dsimp only; omega)) i mem)
    · exact .inr (Code.tidy_bare rfl rfl)
    · exact .inr (Code.tidy_jump (.inl (by dsimp only; omega)) i mem)
    · exact .inr Code.tidy_marker
    · exact .inl (.inr mem)
    · exact .inr Code.tidy_marker
  · have taken : Label.range next 2 = [⟨next⟩, ⟨next + 1⟩] := rfl
    have one : Code.marks [.imm .const 1] = [] := rfl
    simp only [Code.marks_append, Code.marks_jump, Code.marks_jumpIfZero, Code.marks_marker, Code.marks_nil,
      one, List.nil_append]
    rw [taken, List.cons_append, List.cons_append, List.cons_append, List.nil_append, List.nil_append]
    -- The first label comes from between the operands to the front, and the second one from the end.
    refine List.perm_middle.trans (.cons _ ?_)
    rw [← List.append_assoc]
    exact List.perm_append_singleton _ _

/-- The labels of the code of a call: its own is placed behind the jump to the callee, whose entry it
names. -/
theorem Labelled.call {name : String} {callee : Callee} {offset : Int}
    (found : site.table.find? name = some callee) (values : Labelled site (next + 1) count block) :
    Labelled site next (1 + count) (Code.save site ⟨next⟩ ++ (block ++ (Code.enter offset callee.entry ++
      ([.marker ⟨next⟩] ++ Code.restore site)))) := by
  have restored : Code.Bare (Code.restore site) := Code.bare_map_imm _ _
  have saved : Code.Bare ((Emit.window site).reverse.map (.imm .push)) := Code.bare_map_imm _ _
  refine values.enclose ?_ ?_
  · intro i mem
    simp only [List.mem_append, Code.save, Code.enter, List.mem_cons, List.not_mem_nil, or_false] at mem
    rcases mem with (mem | rfl | rfl) | mem | ((rfl | rfl | rfl | rfl) | mem) | rfl | mem
    · exact .inr (saved.tidy i mem)
    · exact .inr (Code.tidy_constant (.inl (by dsimp only; omega)))
    · exact .inr (Code.tidy_bare rfl rfl)
    · exact .inl mem
    · exact .inr (Code.tidy_bare rfl rfl)
    · exact .inr (Code.tidy_bare rfl rfl)
    · exact .inr (Code.tidy_bare rfl rfl)
    · exact .inr (Code.tidy_bare rfl rfl)
    · exact .inr (Code.tidy_jump (.inr (.inr ⟨name, callee, found, rfl⟩)) i mem)
    · exact .inr Code.tidy_marker
    · exact .inr (restored.tidy i mem)
  · have placed : Code.marks (Code.save site ⟨next⟩) = [] := by
      rw [Code.save, Code.marks_append, saved.marks_eq_nil]
      rfl
    have jumped : Code.marks (Code.enter offset callee.entry) = [] := rfl
    simp only [Code.marks_append, placed, jumped, restored.marks_eq_nil, List.nil_append, List.append_nil]
    exact List.perm_append_comm

end Pieces

mutual

/-- The labels of the code of an expression. -/
theorem exprCode_labelled {depth : Int} {next : Nat} {block : List Instr} :
    (e : Expr) → ExprCode site depth next e block → Labelled site next e.labels block
  | .int _, .int _ => .bare (Code.bare_singleton rfl rfl)
  | .var _, .var _ => .bare (Code.bare_singleton rfl rfl)
  | .paren inner, .paren code => by
    rw [Expr.labels]
    exact exprCode_labelled inner code
  | .unary op operand, .unary code => by
    rw [Expr.labels]
    exact (exprCode_labelled operand code).append (.bare (Code.bare_unary op))
  | .binary op lhs rhs, .binary known left right => by
    have none : (if op = .and ∨ op = .or then 2 else 0) = 0 := by cases op <;> cases known <;> rfl
    rw [Expr.labels, none, Nat.zero_add]
    exact (exprCode_labelled lhs left).append
      ((exprCode_labelled rhs right).append (.bare (Code.bare_binary known)))
  | .binary _ lhs rhs, .and left right => by
    rw [Expr.labels, if_pos (.inl rfl), Nat.add_assoc]
    exact (exprCode_labelled lhs left).and (exprCode_labelled rhs right)
  | .binary _ lhs rhs, .or left right => by
    rw [Expr.labels, if_pos (.inr rfl), Nat.add_assoc]
    exact (exprCode_labelled lhs left).or (exprCode_labelled rhs right)
  | .call _ args _ _, .input arity values => by
    rw [Expr.labels, if_pos rfl, Nat.zero_add]
    exact (exprsCode_labelled args values).append (.bare (by decide))
  | .call name args _ _, .call user found value (.mk arity values) => by
    rw [Expr.labels, if_neg user]
    exact ((exprsCode_labelled args values).call found).append (.bare (by decide))

/-- The labels of the code of expressions. -/
theorem exprsCode_labelled {depth : Int} {next : Nat} {block : List Instr} :
    (es : List Expr) → ExprsCode site depth next es block →
      Labelled site next (Expr.labelsOfAll es) block
  | [], .nil => .bare (by decide)
  | e :: es, .cons head tail => (exprCode_labelled e head).append (exprsCode_labelled es tail)

end

/-- The labels of the code of a value that is held by a register. -/
theorem heldCode_labelled {depth : Int} {next : Nat} {e : Expr} {init : List Instr} {source : Int32}
    (held : HeldCode site depth next e init source) : Labelled site next e.labels init := by
  induction held with
  | var declared => exact .bare (by decide)
  | paren _ ih =>
    rw [Expr.labels]
    exact ih
  | input arity values =>
    rw [Expr.labels, if_pos rfl, Nat.zero_add]
    exact (exprsCode_labelled _ values).append (.bare (by decide))
  | call user found code =>
    cases code with
    | mk arity values =>
      rw [Expr.labels, if_neg user]
      exact (exprsCode_labelled _ values).call found

/-- The labels of the code that moves a value into a register are those of the code of the value. -/
theorem storeCode_labelled {depth : Int} {next : Nat} {e : Expr} {dest : Int32} {block : List Instr}
    (code : StoreCode site depth next e dest block) : Labelled site next e.labels block := by
  rcases code.popped_or_moved with ⟨popped, rfl, value⟩ | ⟨init, source, rfl, held⟩
  · exact (exprCode_labelled e value).append (.bare (Code.bare_singleton rfl rfl))
  · refine (heldCode_labelled held).append (.bare ?_)
    unfold Code.move
    split
    · exact List.forall_mem_nil _
    · exact Code.bare_singleton rfl rfl

/-- The jump to the end of a function has no label of its own. -/
theorem Labelled.exit (next : Nat) : Labelled site next 0 (Code.jump (.label site.exit)) :=
  ⟨Code.tidy_jump (.inr (.inl rfl)), .refl _⟩

/-- The labels of the code of an expression that is a statement. -/
theorem effectCode_labelled {depth : Int} {next : Nat} {block : List Instr} {e : Expr}
    (code : EffectCode site depth next e block) : Labelled site next e.effectLabels block := by
  cases code with
  | assign declared store =>
    rw [Expr.effectLabels]
    exact storeCode_labelled store
  | output abscissa ordinate store =>
    rw [Expr.effectLabels, if_pos rfl, Nat.zero_add, Expr.labelsOfAll, Expr.labelsOfAll, Expr.labelsOfAll,
      Expr.labelsOfAll]
    exact (exprCode_labelled _ abscissa).append ((exprCode_labelled _ ordinate).append
      ((storeCode_labelled store).append (.bare (by decide))))
  | call user found code =>
    cases code with
    | mk arity values =>
      rw [Expr.effectLabels, if_neg user]
      exact (exprsCode_labelled _ values).call found

section Pieces

variable {next count count' count'' : Nat} {first second third inner : List Instr}

/-- The labels of the code of a loop: one of its own is placed in front and one behind. -/
theorem Labelled.loop (test : Labelled site (next + 2) count first)
    (round : Labelled site (next + 2 + count) count' second) :
    Labelled site next (2 + (count + count'))
      ([.marker ⟨next⟩] ++ (first ++ (Code.jumpIfZero ⟨next + 1⟩ ++ (second ++
        (Code.jump (.label ⟨next⟩) ++ [.marker ⟨next + 1⟩]))))) := by
  refine (test.append round).enclose ?_ ?_
  · intro i mem
    simp only [List.mem_append, List.mem_cons, List.not_mem_nil, or_false] at mem ⊢
    rcases mem with rfl | mem | mem | mem | mem | rfl
    · exact .inr Code.tidy_marker
    · exact .inl (.inl mem)
    · exact .inr (Code.tidy_jumpIfZero (.inl (by dsimp only; omega)) i mem)
    · exact .inl (.inr mem)
    · exact .inr (Code.tidy_jump (.inl (by dsimp only; omega)) i mem)
    · exact .inr Code.tidy_marker
  · have taken : Label.range next 2 = [⟨next⟩, ⟨next + 1⟩] := rfl
    simp only [Code.marks_append, Code.marks_jump, Code.marks_jumpIfZero, Code.marks_marker, Code.marks_nil,
      List.nil_append]
    rw [taken, List.cons_append, List.cons_append, List.cons_append, List.nil_append, List.nil_append]
    refine .cons _ ?_
    rw [← List.append_assoc]
    exact List.perm_append_singleton _ _

/-- The labels of the code of a branch: its own is placed by what follows the first arm. -/
theorem Labelled.branch (test : Labelled site (next + 1) count first)
    (arm : Labelled site (next + 1 + count) count' second)
    (other : Labelled site (next + 1 + count + count') count'' inner)
    (around : ∀ i ∈ third, i ∈ inner ∨ i = .marker ⟨next⟩)
    (marks : (Code.marks third).Perm (⟨next⟩ :: Code.marks inner)) :
    Labelled site next (1 + (count + (count' + count'')))
      (first ++ (Code.jumpIfZero ⟨next⟩ ++ (second ++ third))) := by
  refine (test.append (arm.append other)).enclose ?_ ?_
  · intro i mem
    simp only [List.mem_append] at mem ⊢
    rcases mem with mem | mem | mem | mem
    · exact .inl (.inl mem)
    · exact .inr (Code.tidy_jumpIfZero (.inl (by dsimp only; omega)) i mem)
    · exact .inl (.inr (.inl mem))
    · rcases around i mem with mem | rfl
      · exact .inl (.inr (.inr mem))
      · exact .inr Code.tidy_marker
  · have taken : Label.range next 1 = [⟨next⟩] := rfl
    simp only [Code.marks_append, Code.marks_jumpIfZero, List.nil_append]
    rw [taken, List.singleton_append, ← List.append_assoc, ← List.append_assoc]
    exact (marks.append_left _).trans List.perm_middle

end Pieces

mutual

/-- The labels of the code of a statement. -/
theorem stmtCode_labelled {depth : Int} {next : Nat} {block : List Instr} :
    (s : Stmt) → StmtCode site depth next s block → Labelled site next s.labels block
  | .block body, .block code => by
    rw [Stmt.labels]
    exact stmtsCode_labelled body code
  | .expr e, .expr code => by
    rw [Stmt.labels]
    exact effectCode_labelled code
  | .declare _, .declare declared store => by
    rw [Stmt.labels]
    exact storeCode_labelled store
  | .branch cond yes no, .branch test arm other => by
    obtain ⟨inner, labels, around, marks⟩ := alternativeCode_labelled no other
    rw [Stmt.labels, Nat.add_assoc, Nat.add_assoc]
    exact (exprCode_labelled cond test).branch (stmtCode_labelled yes arm) labels around marks
  | .loop cond body, .loop test round => by
    rw [Stmt.labels, Nat.add_assoc]
    exact (exprCode_labelled cond test).loop (stmtCode_labelled body round)
  | .ret _, .leave => .exit next
  | .ret (some value), .ret store => by
    rw [Stmt.labels, Expr.resultLabels]
    exact (storeCode_labelled store).append (.exit _)

/-- The labels of the code of statements. -/
theorem stmtsCode_labelled {depth : Int} {next : Nat} {block : List Instr} :
    (ss : List Stmt) → StmtsCode site depth next ss block → Labelled site next (Stmt.labelsOfAll ss) block
  | [], .nil => .bare (by decide)
  | s :: rest, .cons head tail => (stmtCode_labelled s head).append (stmtsCode_labelled rest tail)

/-- The labels of the code behind the first arm of a branch, where the label of the branch is placed. -/
theorem alternativeCode_labelled {depth : Int} {next : Nat} {otherwise : Label} {block : List Instr} :
    (no : Option Stmt) → AlternativeCode site depth next otherwise no block →
      ∃ inner, Labelled site next (Stmt.alternativeLabels no) inner ∧
        (∀ i ∈ block, i ∈ inner ∨ i = .marker otherwise) ∧
        (Code.marks block).Perm (otherwise :: Code.marks inner)
  | none, .none => ⟨[], .bare (by decide), fun i mem => .inr (List.mem_singleton.1 mem), .refl _⟩
  | some no, @AlternativeCode.some _ _ _ _ _ arm code => by
    have labels := stmtCode_labelled no code
    refine ⟨Code.jump (.label ⟨next⟩) ++ (arm ++ [.marker ⟨next⟩]), ?_, ?_, ?_⟩
    · rw [Stmt.alternativeLabels]
      refine labels.enclose ?_ ?_
      · intro i mem
        simp only [List.mem_append, List.mem_singleton] at mem
        rcases mem with mem | mem | rfl
        · exact .inr (Code.tidy_jump (.inl (by dsimp only; omega)) i mem)
        · exact .inl mem
        · exact .inr Code.tidy_marker
      · rw [Code.marks_append, Code.marks_append, Code.marks_jump, List.nil_append]
        exact List.perm_append_comm
    · intro i mem
      simp only [List.mem_append, List.mem_singleton] at mem ⊢
      rcases mem with mem | rfl | mem | rfl
      · exact .inl (.inl mem)
      · exact .inr rfl
      · exact .inl (.inr (.inl mem))
      · exact .inl (.inr (.inr rfl))
    · exact .refl _

end

/-- The labels of the code of a function: besides those of its body it places its entry and its end. -/
theorem functionCode_labels {next : Nat} {entry : Label} {code : List Instr}
    (h : FunctionCode site next entry code) :
    (∀ i ∈ code, i.Tidy fun label =>
      (next ≤ label.id ∧ label.id < next + Stmt.labelsOfAll site.function.body) ∨ site.Outer label) ∧
    (Code.marks code).Perm
      (entry :: site.exit :: Label.range next (Stmt.labelsOfAll site.function.body)) := by
  obtain ⟨body⟩ := h
  have labels := stmtsCode_labelled _ body
  have taken : Code.Bare (Code.take site) := Code.bare_map_imm _ _
  have left := Code.bare_leave site
  constructor
  · intro i mem
    simp only [List.mem_append, List.mem_singleton] at mem
    rcases mem with rfl | mem | mem | rfl | mem
    · exact Code.tidy_marker
    · exact taken.tidy i mem
    · exact labels.tidy i mem
    · exact Code.tidy_marker
    · exact left.tidy i mem
  · simp only [Code.marks_append, Code.marks_marker, taken.marks_eq_nil, left.marks_eq_nil,
      List.nil_append, List.singleton_append]
    exact .cons _ ((List.perm_append_singleton _ _).trans (.cons _ labels.marks))

end GridStack
