import GridStack.Proofs.Wire.Reads
import GridStack.Wire.Image
import GridStack.Wire.Program

/-!
# What is written is read back

The bytes of a program and of an image are read back as what they were written for, whatever stands behind
them (`Wire.bytes_round_trip`), and when they are cut off anywhere they are found to be too short
(`Wire.cut_detected`). Every type of the tree has its own lemma, which says in the terms of `Decoder.Reads`
that its decoder does both with its form; the recursion is that of the tree, and the bound of the decoder
goes down by one with every node.

That no form begins another one follows from the first part alone: an input that begins with two forms
would be read as two values. The second part is not a consequence of it: a decoder might well find another
fault in what is left of a form, an unfinished character of a name for one.
-/

namespace GridStack

namespace Wire

/-- The forms of expressions one behind the other are those of a list. -/
theorem exprs_eq_flatMap (es : List Expr) : exprs es = es.flatMap expr := by
  induction es with
  | nil => rfl
  | cons e es ih => rw [exprs, List.flatMap_cons, ih]

/-- The form of an optional expression is that of an optional value. -/
theorem exprOption_eq_option (e : Option Expr) : exprOption e = option expr e := by
  cases e <;> rfl

/-- The forms of statements one behind the other are those of a list. -/
theorem stmts_eq_flatMap (ss : List Stmt) : stmts ss = ss.flatMap stmt := by
  induction ss with
  | nil => rfl
  | cons s ss ih => rw [stmts, List.flatMap_cons, ih]

/-- The form of an optional statement is that of an optional value. -/
theorem stmtOption_eq_option (s : Option Stmt) : stmtOption s = option stmt s := by
  cases s <;> rfl

end Wire

namespace Decoder

variable {bound : Nat}

section Images

/-- An opcode is read back. -/
theorem opcode_reads (op : Opcode) : Reads opcode bound (Wire.opcode op) op :=
  enumeration_reads (by cases op <;> decide) (by decide)

/-- An instruction is read back. -/
theorem instruction_reads (i : Instruction) : Reads instruction bound (Wire.instruction i) i := by
  have operand (x : Option Int32) : Reads (option int32) bound (Wire.option Wire.int32 x) x :=
    option_reads fun n _ => int32_reads n
  rw [Wire.instruction, List.append_assoc]
  exact (opcode_reads i.op).bind ((operand i.a).bind ((operand i.b).map (Instruction.mk i.op i.a)))

/-- Every instruction has a form. -/
theorem instruction_ne_nil (i : Instruction) : Wire.instruction i ≠ [] := by
  rw [Wire.instruction, List.append_assoc]
  exact List.append_ne_nil_of_left_ne_nil (kind_ne_nil _) _

/-- A symbol is read back. -/
theorem symbol_reads (s : Symbol) : Reads symbol bound (Wire.symbol s) s :=
  (text_reads s.name).bind ((uint32_reads s.entry).map (Symbol.mk s.name))

/-- Every symbol has a form. -/
theorem symbol_ne_nil (s : Symbol) : Wire.symbol s ≠ [] :=
  List.append_ne_nil_of_left_ne_nil (text_ne_nil s.name) _

/-- An image is read back. -/
theorem image_reads (image : Image) : Reads Decoder.image bound image.toBytes image := by
  have code : Reads (list instruction) bound (Wire.list Wire.instruction image.code) image.code :=
    list_reads (fun i _ => instruction_reads i) instruction_ne_nil
  have symbols : Reads (list symbol) bound (Wire.list Wire.symbol image.symbols) image.symbols :=
    list_reads (fun s _ => symbol_reads s) symbol_ne_nil
  exact code.bind (symbols.map (Image.mk image.code))

end Images

section Programs

/-- A type name is read back. -/
theorem typeName_reads (type : TypeName) : Reads typeName bound (Wire.typeName type) type := by
  cases type with
  | int => exact (kind_reads (by decide)).last (.pure bound TypeName.int)
  | void => exact (kind_reads (by decide)).last (.pure bound TypeName.void)
  | other name => exact (kind_reads (by decide)).bind ((text_reads name).map TypeName.other)

/-- Every type name has a form. -/
theorem typeName_ne_nil (type : TypeName) : Wire.typeName type ≠ [] := by
  cases type with
  | int => exact kind_ne_nil 0
  | void => exact kind_ne_nil 1
  | other name => exact List.append_ne_nil_of_left_ne_nil (kind_ne_nil 2) _

/-- A unary operator is read back. -/
theorem unaryOp_reads (op : UnaryOp) : Reads unaryOp bound (Wire.unaryOp op) op :=
  enumeration_reads (by cases op <;> decide) (by decide)

/-- A binary operator is read back. -/
theorem binaryOp_reads (op : BinaryOp) : Reads binaryOp bound (Wire.binaryOp op) op :=
  enumeration_reads (by cases op <;> decide) (by decide)

/-- An assignment operator is read back. -/
theorem assignOp_reads (op : AssignOp) : Reads assignOp bound (Wire.assignOp op) op := by
  cases op with
  | plain => exact (kind_reads (by decide)).last (.pure bound AssignOp.plain)
  | compound op => exact (kind_reads (by decide)).bind ((binaryOp_reads op).map AssignOp.compound)

/-- The parts of a node stand behind the number of its kind, with a bound that is smaller by one. -/
theorem node_reads {α : Type} {f : Nat → Decoder α} {n : Nat} {form : List UInt8} {value : α}
    (few : n < 2 ^ 32) (parts : Reads (f n) bound form value) :
    Reads (kind >>= f) (bound + 1) (Wire.kind n ++ form) value :=
  (kind_reads few).node (kind_ne_nil n) parts

/-- Every expression has a form, which begins with its kind. -/
theorem expr_ne_nil (e : Expr) : Wire.expr e ≠ [] := by
  cases e <;> simp only [Wire.expr, List.append_assoc] <;>
    exact List.append_ne_nil_of_left_ne_nil (kind_ne_nil _) _

mutual

/-- An expression is read back. -/
theorem expr_reads (e : Expr) (bound : Nat) : Reads (expr bound) bound (Wire.expr e) e := by
  -- Where no byte is allowed nothing can be read, and every other bound leaves one for the kind.
  match bound, e with
  | 0, e => exact .none (expr_ne_nil e)
  | bound + 1, .int value =>
    rw [Wire.expr]
    exact node_reads (by decide) ((int64_reads value).map Expr.int)
  | bound + 1, .var name =>
    rw [Wire.expr]
    exact node_reads (by decide) ((text_reads name).map Expr.var)
  | bound + 1, .paren inner =>
    rw [Wire.expr]
    exact node_reads (by decide) ((expr_reads inner bound).map Expr.paren)
  | bound + 1, .unary op operand =>
    rw [Wire.expr, List.append_assoc]
    exact node_reads (by decide)
      ((unaryOp_reads op).bind ((expr_reads operand bound).map (Expr.unary op)))
  | bound + 1, .binary op lhs rhs =>
    rw [Wire.expr, List.append_assoc, List.append_assoc]
    exact node_reads (by decide) ((binaryOp_reads op).bind
      ((expr_reads lhs bound).bind ((expr_reads rhs bound).map (Expr.binary op lhs))))
  | bound + 1, .assign op target value =>
    rw [Wire.expr, List.append_assoc, List.append_assoc]
    exact node_reads (by decide) ((assignOp_reads op).bind
      ((text_reads target).bind ((expr_reads value bound).map (Expr.assign op target))))
  | bound + 1, .call name args receiver typeArgs =>
    have values : Reads (list (expr bound)) bound (Wire.list Wire.expr args) args :=
      list_reads (exprs_read args bound) expr_ne_nil
    have object : Reads (option (expr bound)) bound (Wire.option Wire.expr receiver) receiver :=
      option_reads (exprOption_reads receiver bound)
    have types : Reads (list typeName) bound (Wire.list Wire.typeName typeArgs) typeArgs :=
      list_reads (fun type _ => typeName_reads type) typeName_ne_nil
    rw [Wire.expr, Wire.exprs_eq_flatMap, Wire.exprOption_eq_option]
    simp only [List.append_assoc]
    rw [← List.append_assoc (Wire.length args.length)]
    exact node_reads (by decide) ((text_reads name).bind
      (values.bind (object.bind (types.map (Expr.call name args receiver)))))

/-- Expressions are read back. -/
theorem exprs_read (es : List Expr) (bound : Nat) :
    ∀ e ∈ es, Reads (expr bound) bound (Wire.expr e) e := by
  match es with
  | [] => exact List.forall_mem_nil _
  | e :: es => exact List.forall_mem_cons.2 ⟨expr_reads e bound, exprs_read es bound⟩

/-- An optional expression is read back. -/
theorem exprOption_reads (value : Option Expr) (bound : Nat) :
    ∀ e ∈ value, Reads (expr bound) bound (Wire.expr e) e := by
  match value with
  | none => exact fun _ mem => nomatch mem
  | some e => exact fun _ mem => Option.some.inj mem ▸ expr_reads e bound

end

/-- A declarator is read back. -/
theorem declarator_reads (d : Declarator) (bound : Nat) :
    Reads (declarator bound) bound (Wire.declarator d) d := by
  have init : Reads (option (expr bound)) bound (Wire.option Wire.expr d.init) d.init :=
    option_reads (exprOption_reads d.init bound)
  exact (text_reads d.name).bind (init.map (Declarator.mk d.name))

/-- Texts are read back. -/
theorem texts_read (texts : List String) : Reads (list text) bound (Wire.list Wire.text texts) texts :=
  list_reads (fun s _ => text_reads s) text_ne_nil

/-- A local declaration is read back. -/
theorem varDecl_reads (decl : VarDecl) (bound : Nat) :
    Reads (varDecl bound) bound (Wire.varDecl decl) decl := by
  have declarators : Reads (list (declarator bound)) bound
      (Wire.list Wire.declarator decl.declarators) decl.declarators :=
    list_reads (fun d _ => declarator_reads d bound) fun d =>
      List.append_ne_nil_of_left_ne_nil (text_ne_nil d.name) _
  rw [Wire.varDecl, List.append_assoc]
  exact (typeName_reads decl.type).bind
    ((texts_read decl.modifiers).bind (declarators.map (VarDecl.mk decl.type decl.modifiers)))

/-- Every statement has a form, which begins with its kind. -/
theorem stmt_ne_nil (s : Stmt) : Wire.stmt s ≠ [] := by
  cases s <;> simp only [Wire.stmt, List.append_assoc] <;>
    exact List.append_ne_nil_of_left_ne_nil (kind_ne_nil _) _

mutual

/-- A statement is read back. -/
theorem stmt_reads (s : Stmt) (bound : Nat) : Reads (stmt bound) bound (Wire.stmt s) s := by
  match bound, s with
  | 0, s => exact .none (stmt_ne_nil s)
  | bound + 1, .block body =>
    have parts : Reads (list (stmt bound)) bound (Wire.list Wire.stmt body) body :=
      list_reads (stmts_read body bound) stmt_ne_nil
    rw [Wire.stmt, Wire.stmts_eq_flatMap]
    exact node_reads (by decide) (parts.map Stmt.block)
  | bound + 1, .expr value =>
    rw [Wire.stmt]
    exact node_reads (by decide) ((expr_reads value bound).map Stmt.expr)
  | bound + 1, .declare decl =>
    rw [Wire.stmt]
    exact node_reads (by decide) ((varDecl_reads decl bound).map Stmt.declare)
  | bound + 1, .branch cond yes no =>
    have other : Reads (option (stmt bound)) bound (Wire.option Wire.stmt no) no :=
      option_reads (stmtOption_reads no bound)
    rw [Wire.stmt, Wire.stmtOption_eq_option, List.append_assoc, List.append_assoc]
    exact node_reads (by decide) ((expr_reads cond bound).bind
      ((stmt_reads yes bound).bind (other.map (Stmt.branch cond yes))))
  | bound + 1, .loop cond body =>
    rw [Wire.stmt, List.append_assoc]
    exact node_reads (by decide)
      ((expr_reads cond bound).bind ((stmt_reads body bound).map (Stmt.loop cond)))
  | bound + 1, .ret value =>
    have result : Reads (option (expr bound)) bound (Wire.option Wire.expr value) value :=
      option_reads (exprOption_reads value bound)
    rw [Wire.stmt]
    exact node_reads (by decide) (result.map Stmt.ret)

/-- Statements are read back. -/
theorem stmts_read (ss : List Stmt) (bound : Nat) :
    ∀ s ∈ ss, Reads (stmt bound) bound (Wire.stmt s) s := by
  match ss with
  | [] => exact List.forall_mem_nil _
  | s :: ss => exact List.forall_mem_cons.2 ⟨stmt_reads s bound, stmts_read ss bound⟩

/-- An optional statement is read back. -/
theorem stmtOption_reads (s : Option Stmt) (bound : Nat) :
    ∀ s' ∈ s, Reads (stmt bound) bound (Wire.stmt s') s' := by
  match s with
  | none => exact fun _ mem => nomatch mem
  | some s => exact fun _ mem => Option.some.inj mem ▸ stmt_reads s bound

end

/-- A parameter is read back. -/
theorem param_reads (p : Param) : Reads param bound (Wire.param p) p :=
  (text_reads p.name).bind ((typeName_reads p.type).map (Param.mk p.name))

/-- A function is read back. -/
theorem functionDecl_reads (decl : FunctionDecl) (bound : Nat) :
    Reads (functionDecl bound) bound (Wire.functionDecl decl) decl := by
  have params : Reads (list param) bound (Wire.list Wire.param decl.params) decl.params :=
    list_reads (fun p _ => param_reads p) fun p =>
      List.append_ne_nil_of_left_ne_nil (text_ne_nil p.name) _
  have body : Reads (list (stmt bound)) bound (Wire.list Wire.stmt decl.body) decl.body :=
    list_reads (fun s _ => stmt_reads s bound) stmt_ne_nil
  unfold Wire.functionDecl
  simp only [List.append_assoc]
  exact (text_reads decl.name).bind (params.bind ((typeName_reads decl.returnType).bind (body.bind
    ((texts_read decl.modifiers).bind ((texts_read decl.typeParams).bind ((texts_read decl.throws).map
      (FunctionDecl.mk decl.name decl.params decl.returnType decl.body decl.modifiers
        decl.typeParams)))))))

/-- A program is read back. -/
theorem program_reads (p : Program) (bound : Nat) : Reads (program bound) bound p.toBytes p := by
  have functions : Reads (list (functionDecl bound)) bound
      (Wire.list Wire.functionDecl p.functions) p.functions :=
    list_reads (fun decl _ => functionDecl_reads decl bound) fun decl => by
      unfold Wire.functionDecl
      simp only [List.append_assoc]
      exact List.append_ne_nil_of_left_ne_nil (text_ne_nil decl.name) _
  exact functions.map Program.mk

end Programs

/-- A value that is read is the answer of a run, whatever stands behind its form. -/
theorem Reads.run_eq {α : Type} {d : Decoder α} {form : List UInt8} {value : α}
    (h : Reads d bound form value) (small : form.length < 2 ^ 64) (fits : form.length ≤ bound)
    (rest : List UInt8) : d.run (form ++ rest) = .ok value := by
  unfold run
  rw [h.whole small fits rest]
  rfl

/-- A form of which the end is missing is too short for a run. -/
theorem Reads.run_eq_of_part {α : Type} {d : Decoder α} {form front : List UInt8} {value : α}
    (h : Reads d bound form value) (small : form.length < 2 ^ 64) (part : front <+: form)
    (ne : front ≠ form) (fits : front.length ≤ bound) : d.run front = .error .unexpectedEnd := by
  obtain ⟨back, split⟩ := part
  have missing : back ≠ [] := by
    rintro rfl
    exact ne ((List.append_nil front).symm.trans split)
  unfold run
  rw [h.part small front back split.symm missing fits]
  rfl

end Decoder

/-- The bytes of a program are read as this program, whatever stands behind them. -/
theorem Program.ofBytes_append (p : Program) (small : p.toBytes.length < 2 ^ 64) (rest : List UInt8) :
    Program.ofBytes (p.toBytes ++ rest) = .ok p := by
  have fits : p.toBytes.length ≤ (p.toBytes ++ rest).length := by
    rw [List.length_append]
    exact Nat.le_add_right _ _
  exact (Decoder.program_reads p _).run_eq small fits rest

/-- The bytes of an image are read as this image, whatever stands behind them. -/
theorem Image.ofBytes_append (image : Image) (small : image.toBytes.length < 2 ^ 64) (rest : List UInt8) :
    Image.ofBytes (image.toBytes ++ rest) = .ok image := by
  have reads : Decoder.Reads Decoder.image image.toBytes.length image.toBytes image :=
    Decoder.image_reads image
  exact reads.run_eq small (Nat.le_refl _) rest

namespace Wire

/-- Values that are read back from the front of an input have forms of which none begins another one. -/
theorem not_prefix {α : Type} {toBytes : α → List UInt8} {ofBytes : List UInt8 → Except DecodeError α}
    (reads : ∀ x, (toBytes x).length < 2 ^ 64 → ∀ rest, ofBytes (toBytes x ++ rest) = .ok x) {x y : α}
    (small : (toBytes y).length < 2 ^ 64) (ne : x ≠ y) : ¬ toBytes x <+: toBytes y := by
  rintro ⟨rest, eq⟩
  have shorter : (toBytes x).length < 2 ^ 64 := by
    rw [← eq, List.length_append] at small
    omega
  -- One input is read as both values.
  have first : ofBytes (toBytes y) = .ok x := eq ▸ reads x shorter rest
  have second : ofBytes (toBytes y ++ []) = .ok y := reads y small []
  rw [List.append_nil, first] at second
  exact ne (Except.ok.inj second)

/-- Programs and images are read back from their bytes, whatever stands behind these, and so no program
and no image has bytes with which those of another one begin. -/
theorem bytes_round_trip :
    (∀ p : Program, p.toBytes.length < 2 ^ 64 → ∀ rest, Program.ofBytes (p.toBytes ++ rest) = .ok p) ∧
      (∀ image : Image, image.toBytes.length < 2 ^ 64 →
        ∀ rest, Image.ofBytes (image.toBytes ++ rest) = .ok image) ∧
      (∀ p q : Program, q.toBytes.length < 2 ^ 64 → p ≠ q → ¬ p.toBytes <+: q.toBytes) ∧
      ∀ image image' : Image, image'.toBytes.length < 2 ^ 64 → image ≠ image' →
        ¬ image.toBytes <+: image'.toBytes :=
  ⟨Program.ofBytes_append, Image.ofBytes_append,
    fun _ _ small ne => not_prefix Program.ofBytes_append small ne,
    fun _ _ small ne => not_prefix Image.ofBytes_append small ne⟩

/-- A program with the least literal, a name outside of ASCII, and calls in calls. -/
def remote : Program :=
  ⟨[⟨"größe", [⟨"x", .other "Wort"⟩], .int,
    [.ret (some (.call "f" [.int Int64.minValue, .paren (.unary .neg (.var "x"))]
      (some (.binary .ushr (.var "x") (.assign (.compound .rem) "y" (.int (-1))))) [.int, .other "T"])),
      .branch (.int 128) (.block [])
        (some (.declare ⟨.int, ["final"], [⟨"z", none⟩, ⟨"z", some (.int 0)⟩]⟩))],
    ["static"], [], ["E"]⟩]⟩

/-- An image with the least operand and the largest entry. -/
def extreme : Image :=
  ⟨[⟨.const, some Int32.minValue, none⟩, ⟨.copy, some Int32.maxValue, some (-1)⟩], [⟨"größe", 4294967295⟩]⟩

/-- These two are read back with bytes behind them, and the bytes of the empty program and of the empty
image do not begin theirs. -/
theorem bytes_round_trip_remote :
    (remote.toBytes.length < 2 ^ 64 ∧ Program.ofBytes (remote.toBytes ++ [7, 7]) = .ok remote) ∧
      (extreme.toBytes.length < 2 ^ 64 ∧ Image.ofBytes (extreme.toBytes ++ [0]) = .ok extreme) ∧
      ((⟨[]⟩ : Program) ≠ remote ∧ ¬ (⟨[]⟩ : Program).toBytes <+: remote.toBytes) ∧
      (⟨[], []⟩ : Image) ≠ extreme ∧ ¬ (⟨[], []⟩ : Image).toBytes <+: extreme.toBytes := by
  have small : remote.toBytes.length < 2 ^ 64 := by decide
  have small' : extreme.toBytes.length < 2 ^ 64 := by decide
  have ne : (⟨[]⟩ : Program) ≠ remote := nofun
  have ne' : (⟨[], []⟩ : Image) ≠ extreme := nofun
  exact ⟨⟨small, bytes_round_trip.1 remote small _⟩, ⟨small', bytes_round_trip.2.1 extreme small' _⟩,
    ⟨ne, bytes_round_trip.2.2.1 _ remote small ne⟩, ne', bytes_round_trip.2.2.2 _ extreme small' ne'⟩

/-- The bytes of a program and of an image cannot be cut off unnoticed: whatever a proper front part of
them ends inside of, it is too short to be read, and no other fault is found in it. -/
theorem cut_detected :
    (∀ p : Program, p.toBytes.length < 2 ^ 64 → ∀ front, front <+: p.toBytes → front ≠ p.toBytes →
        Program.ofBytes front = .error .unexpectedEnd) ∧
      ∀ image : Image, image.toBytes.length < 2 ^ 64 → ∀ front, front <+: image.toBytes →
        front ≠ image.toBytes → Image.ofBytes front = .error .unexpectedEnd := by
  constructor
  · intro p small front part ne
    -- The nodes of a program are read with the length of the input as their bound.
    have reads : Decoder.Reads (Decoder.program front.length) front.length p.toBytes p :=
      Decoder.program_reads p front.length
    exact reads.run_eq_of_part small part ne (Nat.le_refl _)
  · intro image small front part ne
    have reads : Decoder.Reads Decoder.image front.length image.toBytes image := Decoder.image_reads image
    exact reads.run_eq_of_part small part ne (Nat.le_refl _)

/-- The two values above, cut off inside the first character of a name that is outside of ASCII, and inside
an operand. -/
theorem cut_detected_character :
    (remote.toBytes.length < 2 ^ 64 ∧ remote.toBytes.take 5 = [1, 7, 103, 114, 195] ∧
        Program.ofBytes (remote.toBytes.take 5) = .error .unexpectedEnd) ∧
      extreme.toBytes.length < 2 ^ 64 ∧ extreme.toBytes.take 4 = [2, 1, 1, 255] ∧
        Image.ofBytes (extreme.toBytes.take 4) = .error .unexpectedEnd := by
  have small : remote.toBytes.length < 2 ^ 64 := by decide
  have small' : extreme.toBytes.length < 2 ^ 64 := by decide
  have ne : remote.toBytes.take 5 ≠ remote.toBytes := by decide
  have ne' : extreme.toBytes.take 4 ≠ extreme.toBytes := by decide
  exact ⟨⟨small, by decide, cut_detected.1 remote small _ (List.take_prefix _ _) ne⟩,
    small', by decide, cut_detected.2 extreme small' _ (List.take_prefix _ _) ne'⟩

end Wire

end GridStack
