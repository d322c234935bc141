import GridStack.Proofs.Acceptance.Rules

/-!
# What the check decides

The check of a function succeeds exactly when the function is formed as it should be, and otherwise it
blames the function (`FunctionDecl.check_decides`). `Check.Decides` is this of any part of the check: it
succeeds with a given result exactly when a condition holds. Two parts one behind the other decide the two
conditions together (`Decides.bind`), and so the proof follows the check.
-/

namespace GridStack

/-- The first of variables that fit, fit. -/
theorem Fit.left {vars rest : List String} (fit : Fit (vars ++ rest)) : Fit vars := by
  refine ⟨fit.nodup.of_append_left, ?_⟩
  have few := fit.few
  rw [List.length_append] at few
  omega

namespace Check

/-- A check succeeds when a condition holds, with a given result, and otherwise its error is a given fault. -/
def Decides {α : Type} (fault : CompileError → Prop) (x : Except CompileError α) (holds : Prop)
    (result : α) : Prop :=
  match x with
  | .ok a => holds ∧ a = result
  | .error e => ¬ holds ∧ fault e

namespace Decides

variable {α β : Type} {fault fault' : CompileError → Prop} {x : Except CompileError α}
  {holds holds' : Prop} {result : α}

/-- A check that succeeds. -/
theorem accept (h : holds) : Decides fault (.ok result) holds result :=
  ⟨h, rfl⟩

/-- A check that fails. -/
theorem refuse {e : CompileError} (h : ¬ holds) (at_fault : fault e) :
    Decides fault (.error e) holds result :=
  ⟨h, at_fault⟩

/-- The same condition in another form. -/
theorem congr (h : Decides fault x holds result) (iff : holds ↔ holds') :
    Decides fault x holds' result := by
  rwa [← propext iff]

/-- A fault of a wider kind. -/
theorem widen (h : Decides fault x holds result) (wider : ∀ e, fault e → fault' e) :
    Decides fault' x holds result := by
  cases x with
  | error e => exact ⟨h.1, wider e h.2⟩
  | ok a => exact h

/-- A check behind another one, which may use what the first one has made sure of. -/
theorem bind {f : α → Except CompileError β} {result' : β} (h : Decides fault x holds result)
    (next : holds → Decides fault (f result) holds' result') :
    Decides fault (x >>= f) (holds ∧ holds') result' := by
  cases x with
  | error e => exact ⟨fun both => h.1 both.1, h.2⟩
  | ok a =>
    obtain ⟨first, rfl⟩ := h
    exact (next first).congr (by simp [first])

/-- A check whose result is put into another one. -/
theorem keep (h : Decides fault x holds result) (f : α → β) :
    Decides fault (do let a ← x; return f a) holds (f result) := by
  cases x with
  | error e => exact h
  | ok a => exact ⟨h.1, congrArg f h.2⟩

/-- A check that refuses something before it goes on. -/
theorem guard {bad : Prop} [Decidable bad] {e : CompileError} (at_fault : fault e)
    (next : ¬ bad → Decides fault x holds result) :
    Decides fault (if bad then .error e else x) (¬ bad ∧ holds) result := by
  by_cases h : bad
  · rw [if_pos h]
    exact refuse (fun both => both.1 h) at_fault
  · rw [if_neg h]
    exact (next h).congr (by simp [h])

/-- A check that succeeds has the given result. -/
theorem eq_of_ok {a : α} (h : Decides fault x holds result) (succeeds : x = .ok a) : a = result := by
  rw [succeeds] at h
  exact h.2

end Decides

/-- Something succeeds when a condition holds, and otherwise its error is a given fault. -/
def Settles {α : Type} (fault : CompileError → Prop) (x : Except CompileError α) (holds : Prop) : Prop :=
  match x with
  | .ok _ => holds
  | .error e => ¬ holds ∧ fault e

/-- A check settles its condition. -/
theorem Decides.settles {α : Type} {fault : CompileError → Prop} {x : Except CompileError α} {holds : Prop}
    {result : α} (h : Decides fault x holds result) : Settles fault x holds := by
  cases x with
  | error e => exact h
  | ok a => exact h.1

namespace Settles

variable {α β : Type} {fault fault' : CompileError → Prop} {x : Except CompileError α}
  {holds holds' : Prop}

/-- The same condition in another form. -/
theorem congr (h : Settles fault x holds) (iff : holds ↔ holds') : Settles fault x holds' := by
  rwa [← propext iff]

/-- A fault of a wider kind. -/
theorem widen (h : Settles fault x holds) (wider : ∀ e, fault e → fault' e) : Settles fault' x holds := by
  cases x with
  | error e => exact ⟨h.1, wider e h.2⟩
  | ok a => exact h

/-- One part behind another, which may use that the first one succeeded. -/
theorem bind {f : α → Except CompileError β} (h : Settles fault x holds)
    (next : ∀ a, x = .ok a → holds → Settles fault (f a) holds') :
    Settles fault (x >>= f) (holds ∧ holds') := by
  cases x with
  | error e => exact ⟨fun both => h.1 both.1, h.2⟩
  | ok a => exact (next a rfl h).congr (iff_and_self.2 fun _ => h)

/-- A part that never fails behind another one. -/
theorem surely {f : α → Except CompileError β} (h : Settles fault x holds)
    (next : ∀ a, x = .ok a → ∃ b, f a = .ok b) : Settles fault (x >>= f) holds := by
  cases x with
  | error e => exact h
  | ok a =>
    obtain ⟨b, succeeds⟩ := next a rfl
    change Settles fault (f a) holds
    rw [succeeds]
    exact h

/-- Something whose result is put into another one. -/
theorem keep (h : Settles fault x holds) (f : α → β) :
    Settles fault (do let a ← x; return f a) holds := by
  cases x with
  | error e => exact h
  | ok a => exact h

/-- What is settled by a condition succeeds exactly when it holds. -/
theorem exists_ok_iff (h : Settles fault x holds) : (∃ a, x = .ok a) ↔ holds := by
  cases x with
  | ok a => exact ⟨fun _ => h, fun _ => ⟨a, rfl⟩⟩
  | error e => exact ⟨nofun, fun holds => absurd holds h.1⟩

end Settles

variable {function : String} {vars : List String}

/-- The literals that stand for a word. -/
theorem literalWord?_isSome_iff (n : Int64) :
    (literalWord? n).isSome ↔ -65535 ≤ n.toInt ∧ n.toInt ≤ 65535 := by
  have low : (-maxWord.toInt64).toInt = -65535 := by decide
  have high : maxWord.toInt64.toInt = 65535 := by decide
  unfold literalWord?
  split
  · next outside =>
    rw [Int64.lt_iff_toInt_lt, Int64.lt_iff_toInt_lt, low, high] at outside
    constructor
    · intro word
      contradiction
    · intro inside
      omega
  · next inside =>
    rw [Int64.lt_iff_toInt_lt, Int64.lt_iff_toInt_lt, low, high] at inside
    constructor
    · intro
      omega
    · intro
      rfl

/-- A name can be declared when there is a register for it and no other variable has it. -/
theorem declare_decides (fit : Fit vars) (name : String) :
    Decides (CompileError.Blames function) (declare function name vars) (Fit (vars ++ [name]))
      (vars ++ [name]) := by
  unfold declare
  split
  · -- Another variable has the name.
    next known =>
    refine .refuse (fun h => ?_) rfl
    exact (List.nodup_append.1 h.nodup).2.2 name known name List.mem_cons_self rfl
  · next fresh =>
    split
    · -- All registers are taken.
      next full =>
      refine .refuse (fun h => ?_) rfl
      have few := h.few
      rw [List.length_append, List.length_singleton] at few
      omega
    · next room =>
      refine .accept ⟨?_, ?_⟩
      · refine List.nodup_append.2
          ⟨fit.nodup, List.nodup_singleton name, fun other mem last mem' eq => ?_⟩
        rw [List.mem_singleton.1 mem'] at eq
        exact fresh (eq ▸ mem)
      · rw [List.length_append, List.length_singleton]
        omega

/-- Assignments have to be plain. -/
theorem assignOp_decides (construct : Expr) (op : AssignOp) :
    Decides (CompileError.Blames function) (assignOp function construct op) (op = .plain) () := by
  cases op with
  | plain => exact .accept rfl
  | compound op => exact .refuse (fun h => nomatch h) rfl

/-- The shape of a call is right when it has neither a receiver nor type arguments. -/
theorem callShape_decides (call : Call) :
    Decides (CompileError.Blames function) (callShape function call)
      (call.receiver = none ∧ call.typeArgs = []) () := by
  unfold callShape
  refine (Decides.guard (by rfl) fun _ => Decides.guard (by rfl) fun _ => .accept trivial).congr ?_
  rw [Option.isSome_iff_ne_none, not_not, not_not, and_true]

/-- Three operators have no code. -/
theorem binaryOp_decides (construct : Expr) (op : BinaryOp) :
    Decides (CompileError.Blames function) (binaryOp function construct op)
      (op ≠ .div ∧ op ≠ .rem ∧ op ≠ .ushr) () := by
  cases op
  case div | rem | ushr => exact .refuse (by decide) rfl
  all_goals exact .accept (by decide)

mutual

/-- A value is accepted when every expression in it is formed as it should be. -/
theorem value_decides (e : Expr) :
    Decides (CompileError.Blames function) (value function e) (∀ p ∈ e.parts, p.Formed) () := by
  match e with
  | .int n =>
    rw [value, Expr.parts, List.forall_mem_singleton, Expr.Formed, ← literalWord?_isSome_iff]
    split
    · next word => exact .accept word
    · next none => exact .refuse none rfl
  | .var name =>
    rw [value, Expr.parts]
    exact .accept (List.forall_mem_singleton.2 trivial)
  | .paren inner =>
    rw [value, Expr.parts]
    exact (value_decides inner).congr (by rw [List.forall_mem_cons, Expr.Formed, true_and])
  | .unary op operand =>
    rw [value, Expr.parts]
    exact (value_decides operand).congr (by rw [List.forall_mem_cons, Expr.Formed, true_and])
  | .binary op lhs rhs =>
    rw [value, Expr.parts]
    refine ((binaryOp_decides _ op).bind fun _ => (value_decides lhs).bind fun _ =>
      value_decides rhs).congr ?_
    rw [List.forall_mem_cons, List.forall_mem_append, Expr.Formed]
  | .assign op target e =>
    rw [value, Expr.parts]
    refine ((assignOp_decides _ op).bind fun _ => .refuse not_false (by rfl)).congr ?_
    rw [List.forall_mem_singleton, Expr.Formed, and_false]
  | .call name args receiver typeArgs =>
    rw [value, Expr.parts]
    -- Behind the shape, `output` is refused, and `input` with other than two arguments.
    refine ((callShape_decides _).bind fun _ => Decides.guard (by rfl) fun _ =>
      Decides.guard (by rfl) fun _ => values_decides args).congr ?_
    rw [List.forall_mem_cons, Expr.Formed, not_and, not_not, and_assoc, and_assoc, and_assoc, and_assoc]

/-- Values are accepted when each of them is. -/
theorem values_decides (es : List Expr) :
    Decides (CompileError.Blames function) (values function es) (∀ p ∈ Expr.partsOfAll es, p.Formed) () := by
  match es with
  | [] =>
    rw [values, Expr.partsOfAll]
    exact .accept (List.forall_mem_nil _)
  | e :: es =>
    rw [values, Expr.partsOfAll]
    refine ((value_decides e).bind fun _ => values_decides es).congr ?_
    rw [List.forall_mem_append]

end

variable {returnsValue : Bool}

/-- An expression is accepted as a statement when it is an assignment or a call as it should be. -/
theorem effect_decides (e : Expr) :
    Decides (CompileError.Blames function) (effect function e) ((Stmt.expr e).Sound returnsValue) () := by
  unfold Stmt.Sound
  match e with
  | .assign op target e =>
    rw [effect, Stmt.Formed, Stmt.operands, Expr.partsOfAll, Expr.partsOfAll, List.append_nil]
    exact (assignOp_decides _ op).bind fun _ => value_decides e
  | .call name args receiver typeArgs =>
    rw [effect, Stmt.Formed, Stmt.operands]
    refine ((callShape_decides _).bind fun _ => Decides.guard (by rfl) fun _ =>
      Decides.guard (by rfl) fun _ => values_decides args).congr ?_
    rw [not_and, not_not, and_assoc, and_assoc, and_assoc, and_assoc]
  | .int _ | .var _ | .paren _ | .unary _ _ | .binary _ _ _ =>
    exact .refuse (fun sound => sound.1) rfl

/-- A declaration is accepted when it is formed as it should be and there is room for its variable. -/
theorem declaration_decides (fit : Fit vars) (decl : VarDecl) :
    Decides (CompileError.Blames function) (declaration function decl vars)
      ((Stmt.declare decl).Sound returnsValue ∧ Fit (vars ++ (Stmt.declare decl).declared))
      (vars ++ (Stmt.declare decl).declared) := by
  obtain ⟨type, modifiers, declarators⟩ := decl
  unfold declaration Stmt.Sound
  rw [Stmt.Formed, Stmt.operands, Stmt.declared]
  match declarators with
  | [⟨name, some init⟩] =>
    refine (Decides.guard (by rfl) fun _ => Decides.guard (by rfl) fun _ =>
      (declare_decides fit name).bind fun _ => (value_decides init).keep fun _ => vars ++ [name]).congr ?_
    simp only [List.filterMap_cons, List.filterMap_nil, Expr.partsOfAll, List.append_nil, List.map_cons,
      List.map_nil]
    constructor
    · rintro ⟨type, modifiers, room, formed⟩
      exact ⟨⟨⟨not_not.1 type, not_not.1 modifiers, name, init, rfl⟩, formed⟩, room⟩
    · rintro ⟨⟨⟨type, modifiers, -⟩, formed⟩, room⟩
      exact ⟨not_not.2 type, not_not.2 modifiers, room, formed⟩
  | [⟨name, none⟩] =>
    refine (Decides.guard (by rfl) fun _ => Decides.guard (by rfl) fun _ =>
      .refuse not_false (by rfl)).congr ?_
    simp
  | [] | _ :: _ :: _ =>
    refine (Decides.guard (by rfl) fun _ => .refuse not_false (by rfl)).congr ?_
    simp

/-- A return is accepted when it has a value exactly where one is promised. -/
theorem result_decides (value : Option Expr) :
    Decides (CompileError.Blames function) (result function returnsValue value)
      ((Stmt.ret value).Sound returnsValue) () := by
  unfold Stmt.Sound
  rw [Stmt.Formed, Stmt.operands]
  match value, returnsValue with
  | some e, true =>
    refine (value_decides e).congr ?_
    simp [Expr.partsOfAll]
  | some e, false => exact .refuse (fun sound => nomatch sound.1) rfl
  | none, true => exact .refuse (fun sound => nomatch sound.1) rfl
  | none, false => exact .accept ⟨rfl, List.forall_mem_nil _⟩

/-- Statements as they should be, with room for the variables that they declare. -/
def Room (returnsValue : Bool) (vars : List String) (parts : List Stmt) : Prop :=
  (∀ s ∈ parts, s.Sound returnsValue) ∧ Fit (vars ++ parts.flatMap Stmt.declared)

/-- There is always room for nothing. -/
theorem Room.nil (fit : Fit vars) : Room returnsValue vars [] :=
  ⟨List.forall_mem_nil _, by rwa [List.flatMap_nil, List.append_nil]⟩

/-- A statement that declares nothing itself, in front of others. -/
theorem Room.cons {s : Stmt} {rest : List Stmt} (none : s.declared = []) :
    s.Sound returnsValue ∧ Room returnsValue vars rest ↔ Room returnsValue vars (s :: rest) := by
  rw [Room, Room, List.forall_mem_cons, List.flatMap_cons, none, List.nil_append, and_assoc]

/-- Statements in front of others, which find less room. -/
theorem Room.append {parts rest : List Stmt} :
    Room returnsValue vars parts ∧ Room returnsValue (vars ++ parts.flatMap Stmt.declared) rest ↔
      Room returnsValue vars (parts ++ rest) := by
  unfold Room
  rw [List.forall_mem_append, List.flatMap_append, ← List.append_assoc]
  constructor
  · rintro ⟨⟨sound, -⟩, sound', fit⟩
    exact ⟨⟨sound, sound'⟩, fit⟩
  · rintro ⟨⟨sound, sound'⟩, fit⟩
    exact ⟨⟨sound, fit.left⟩, sound', fit⟩

/-- A check of statements that finds them as they should be, adds their variables, and otherwise blames the
function. -/
abbrev DecidesRoom (function : String) (returnsValue : Bool) (vars : List String) (parts : List Stmt)
    (x : Except CompileError (List String)) : Prop :=
  Decides (CompileError.Blames function) x (Room returnsValue vars parts)
    (vars ++ parts.flatMap Stmt.declared)

/-- A check of a statement that declares nothing itself and has no statement in it. -/
theorem DecidesRoom.leaf {s : Stmt} (none : s.declared = []) (fit : Fit vars)
    {x : Except CompileError Unit} (h : Decides (CompileError.Blames function) x (s.Sound returnsValue) ()) :
    DecidesRoom function returnsValue vars [s] (do x; return vars) := by
  unfold DecidesRoom
  rw [List.flatMap_singleton, none, List.append_nil]
  refine (h.keep fun _ => vars).congr ?_
  rw [← Room.cons none]
  exact (and_iff_left (Room.nil fit)).symm

/-- Nothing is checked where there is no statement. -/
theorem DecidesRoom.nothing (fit : Fit vars) : DecidesRoom function returnsValue vars [] (.ok vars) := by
  unfold DecidesRoom
  rw [List.flatMap_nil, List.append_nil]
  exact .accept (Room.nil fit)

/-- A check of the condition of a statement in front of the check of the statements in it. -/
theorem DecidesRoom.behind {s : Stmt} {cond : Expr} {parts : List Stmt}
    {x : Except CompileError (List String)} (none : s.declared = []) (formed : s.Formed returnsValue)
    (operands : s.operands = [cond]) (h : DecidesRoom function returnsValue vars parts x) :
    DecidesRoom function returnsValue vars (s :: parts) (do value function cond; x) := by
  have both := (value_decides cond).bind (f := fun _ => x) fun _ => h
  unfold DecidesRoom
  rw [List.flatMap_cons, none, List.nil_append]
  refine both.congr ?_
  rw [← Room.cons none, Stmt.Sound, operands, Expr.partsOfAll, Expr.partsOfAll, List.append_nil]
  exact and_congr_left fun _ => (and_iff_right formed).symm

/-- A check of statements in front of the check of others, which find less room. -/
theorem DecidesRoom.append {parts rest : List Stmt} {x : Except CompileError (List String)}
    {f : List String → Except CompileError (List String)}
    (h : DecidesRoom function returnsValue vars parts x)
    (next : Fit (vars ++ parts.flatMap Stmt.declared) →
      DecidesRoom function returnsValue (vars ++ parts.flatMap Stmt.declared) rest
        (f (vars ++ parts.flatMap Stmt.declared))) :
    DecidesRoom function returnsValue vars (parts ++ rest) (x >>= f) := by
  have both := h.bind fun room => next room.2
  unfold DecidesRoom
  rw [List.flatMap_append, ← List.append_assoc]
  exact both.congr Room.append

mutual

/-- A statement is accepted when every statement in it is as it should be and there is room. -/
theorem stmt_decides (s : Stmt) {vars : List String} (fit : Fit vars) :
    DecidesRoom function returnsValue vars s.parts (stmt function returnsValue s vars) := by
  match s with
  | .block body =>
    rw [stmt, Stmt.parts]
    refine (stmts_decides body fit).congr ?_
    rw [← Room.cons rfl, iff_and_self]
    exact fun _ => ⟨trivial, List.forall_mem_nil _⟩
  | .expr e =>
    rw [stmt, Stmt.parts]
    exact DecidesRoom.leaf rfl fit (effect_decides e)
  | .declare decl =>
    rw [stmt, Stmt.parts]
    unfold DecidesRoom Room
    rw [List.flatMap_singleton, List.forall_mem_singleton]
    exact declaration_decides fit decl
  | .branch cond yes no =>
    rw [stmt, Stmt.parts]
    exact .behind rfl trivial rfl ((stmt_decides yes fit).append fun fit => alternative_decides no fit)
  | .loop cond body =>
    rw [stmt, Stmt.parts]
    exact .behind rfl trivial rfl (stmt_decides body fit)
  | .ret value =>
    rw [stmt, Stmt.parts]
    exact DecidesRoom.leaf rfl fit (result_decides value)

/-- Statements are accepted when every statement in them is as it should be and there is room. -/
theorem stmts_decides (ss : List Stmt) {vars : List String} (fit : Fit vars) :
    DecidesRoom function returnsValue vars (Stmt.partsOfAll ss) (stmts function returnsValue ss vars) := by
  match ss with
  | [] =>
    rw [stmts, Stmt.partsOfAll]
    exact .nothing fit
  | s :: rest =>
    rw [stmts, Stmt.partsOfAll]
    exact (stmt_decides s fit).append fun fit => stmts_decides rest fit

/-- The second arm of a branch is accepted as a statement is. -/
theorem alternative_decides (no : Option Stmt) {vars : List String} (fit : Fit vars) :
    DecidesRoom function returnsValue vars (Stmt.alternativeParts no)
      (alternative function returnsValue no vars) := by
  match no with
  | none =>
    rw [alternative, Stmt.alternativeParts]
    exact .nothing fit
  | some s =>
    rw [alternative, Stmt.alternativeParts]
    exact stmt_decides s fit

end

/-- The parameters are accepted when they have the type of words and there is room for them. -/
theorem params_decides (ps : List Param) {vars : List String} (fit : Fit vars) :
    Decides (CompileError.Blames function) (params function ps vars)
      ((∀ p ∈ ps, p.type = .int) ∧ Fit (vars ++ ps.map Param.name)) (vars ++ ps.map Param.name) := by
  induction ps generalizing vars with
  | nil =>
    rw [params, List.map_nil, List.append_nil]
    exact .accept ⟨List.forall_mem_nil _, fit⟩
  | cons p ps ih =>
    rw [params, List.map_cons, List.append_cons]
    refine (Decides.guard (by rfl) fun _ => (declare_decides fit p.name).bind fun fit => ih fit).congr ?_
    rw [not_not, List.forall_mem_cons, and_assoc]
    refine and_congr_right fun _ => and_iff_right_of_imp fun both => both.2.left

end Check

namespace FunctionDecl

/-- What is kept of a function that is accepted. -/
def checked (decl : FunctionDecl) : CheckedFunction where
  name := decl.name
  params := decl.params.length
  returnsValue := decl.returnType = .int
  vars := decl.names
  body := decl.body

/-- A function is accepted exactly when it is formed as it should be, and otherwise it is blamed. -/
theorem check_decides (decl : FunctionDecl) :
    Check.Decides (CompileError.Blames decl.name) decl.check decl.Formed decl.checked := by
  have returns : Check.Decides (CompileError.Blames decl.name) decl.returnsValue
      (decl.returnType = .int ∨ decl.returnType = .void) (decide (decl.returnType = .int)) := by
    unfold returnsValue
    split
    · next int => rw [int]; exact .accept (by decide)
    · next void => rw [void]; exact .accept (by decide)
    · next other => rw [other]; exact .refuse (by simp) rfl
  unfold check
  refine (Check.Decides.guard (by rfl) fun _ => Check.Decides.guard (by rfl) fun _ =>
    returns.bind fun _ => (Check.params_decides decl.params ⟨List.nodup_nil, Nat.zero_le _⟩).bind fun room =>
      (Check.stmts_decides decl.body room.2).keep fun vars => { decl.checked with vars }).congr ?_
  constructor
  · rintro ⟨plain, reserved, result, ⟨params, -⟩, body, fit⟩
    simp only [not_or, not_not] at plain
    exact ⟨plain, reserved, result, params, fit, body⟩
  · rintro ⟨plain, reserved, result, params, fit, body⟩
    refine ⟨?_, reserved, result, ⟨params, fit.left⟩, body, fit⟩
    simpa only [not_or, not_not] using plain

end FunctionDecl

namespace Program

/-- An error is the fault of one of several functions. -/
def Faulty (decls : List FunctionDecl) (e : CompileError) : Prop :=
  ∃ decl ∈ decls, e.Blames decl.name

/-- Functions as they should be one by one, with names that are all different and that none in `seen` has. -/
structure Sorted (seen : List String) (decls : List FunctionDecl) : Prop where
  reserved : ∀ decl ∈ decls, decl.name ≠ inputName ∧ decl.name ≠ outputName
  fresh : ∀ decl ∈ decls, decl.name ∉ seen
  distinct : (decls.map FunctionDecl.name).Nodup
  formed : ∀ decl ∈ decls, decl.Formed

/-- A function in front of others, whose name none of them has. -/
theorem Sorted.cons {seen : List String} {decl : FunctionDecl} {decls : List FunctionDecl} :
    ¬ (decl.name = inputName ∨ decl.name = outputName) ∧ ¬ decl.name ∈ seen ∧ decl.Formed ∧
      Sorted (decl.name :: seen) decls ↔ Sorted seen (decl :: decls) := by
  constructor
  · rintro ⟨builtin, fresh, formed, rest⟩
    refine ⟨List.forall_mem_cons.2 ⟨not_or.1 builtin, rest.reserved⟩, ?_, ?_,
      List.forall_mem_cons.2 ⟨formed, rest.formed⟩⟩
    · refine List.forall_mem_cons.2 ⟨fresh, fun other mem seen => ?_⟩
      exact rest.fresh other mem (List.mem_cons_of_mem _ seen)
    · rw [List.map_cons, List.nodup_cons]
      refine ⟨fun mem => ?_, rest.distinct⟩
      obtain ⟨other, mem, eq⟩ := List.mem_map.1 mem
      exact rest.fresh other mem (eq ▸ List.mem_cons_self)
  · intro sorted
    obtain ⟨new, distinct⟩ := List.nodup_cons.1 sorted.distinct
    refine ⟨not_or.2 (sorted.reserved decl List.mem_cons_self), sorted.fresh decl List.mem_cons_self,
      sorted.formed decl List.mem_cons_self, ?_, ?_, distinct, ?_⟩
    · exact fun other mem => sorted.reserved other (List.mem_cons_of_mem _ mem)
    · intro other mem seen
      rcases List.mem_cons.1 seen with eq | seen
      · exact new (List.mem_map.2 ⟨other, mem, eq⟩)
      · exact sorted.fresh other (List.mem_cons_of_mem _ mem) seen
    · exact fun other mem => sorted.formed other (List.mem_cons_of_mem _ mem)

/-- Functions are accepted one by one. -/
theorem checkAll_decides (seen : List String) (decls : List FunctionDecl) :
    Check.Decides (Faulty decls) (checkAll seen decls) (Sorted seen decls)
      (decls.map FunctionDecl.checked) := by
  induction decls generalizing seen with
  | nil => exact .accept ⟨by simp, by simp, List.nodup_nil, by simp⟩
  | cons decl decls ih =>
    have own : ∀ e, e.Blames decl.name → Faulty (decl :: decls) e := fun e blames =>
      ⟨decl, List.mem_cons_self, blames⟩
    have others : ∀ e, Faulty decls e → Faulty (decl :: decls) e := fun e ⟨other, mem, blames⟩ =>
      ⟨other, List.mem_cons_of_mem _ mem, blames⟩
    rw [checkAll]
    refine (Check.Decides.guard (own _ (by rfl)) fun _ => Check.Decides.guard (own _ (by rfl)) fun _ =>
      (decl.check_decides.widen own).bind fun _ => ((ih (decl.name :: seen)).widen others).keep
        fun fs => decl.checked :: fs).congr ?_
    exact Sorted.cons

/-- The faults of a program: those of its functions, and that it has no `main`. -/
def Fault (program : Program) (e : CompileError) : Prop :=
  e = .missingMain ∨ Faulty program.functions e

/-- Of functions with different names the first one called `main` is the only one. -/
theorem checkMain_decides {program : Program}
    (distinct : (program.functions.map FunctionDecl.name).Nodup) :
    Check.Decides program.Fault program.checkMain program.HasMain () := by
  unfold checkMain
  split
  · next missing =>
    refine .refuse ?_ (.inl rfl)
    rintro ⟨decl, mem, named, -⟩
    exact List.find?_eq_none.1 missing decl mem (beq_iff_eq.2 named)
  · next decl found =>
    have mem := List.mem_of_find?_eq_some found
    have same_name := List.find?_some found
    have named : decl.name = mainName := eq_of_beq same_name
    split
    · next procedure => exact .accept ⟨decl, mem, named, procedure⟩
    · next other =>
      refine .refuse ?_ (.inr ⟨decl, mem, by rfl⟩)
      rintro ⟨decl', mem', named', procedure⟩
      have same := List.inj_on_of_nodup_map distinct mem' mem (named'.trans named.symm)
      exact other (same ▸ procedure)

/-- A program is accepted by the check when its functions are and it has a `main`. -/
theorem check_decides (program : Program) :
    Check.Decides program.Fault program.check (Sorted [] program.functions ∧ program.HasMain)
      (program.functions.map FunctionDecl.checked) := by
  unfold check
  refine ((checkAll_decides [] program.functions).widen fun _ => .inr).bind fun sorted => ?_
  exact (checkMain_decides sorted.distinct).keep fun _ => program.functions.map FunctionDecl.checked

end Program

end GridStack
