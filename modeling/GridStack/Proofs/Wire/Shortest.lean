import GridStack.Proofs.Wire.RoundTrip

/-!
# What is written is the shortest that is read

The decoder accepts more than one input for a value: a number may have more bytes than it needs, wherever in a
tree it stands, and bytes may stand behind the whole. Of all these inputs the bytes that are written for the
value are the shortest one, and no other input is as short (`Wire.encoding_shortest`).

`Decoder.Completes d front form` says this of a decoder in the middle of its work: `front` is the form of what
has been read before, and with what `d` takes off its input this is no shorter than the form of the value. One
decoder behind another one completes what the first one has left unfinished (`Completes.bind`). So a decoder
that reads the parts of a value in their order needs no more than this: with a form for each part, their forms
one behind the other are the form of the value (`Completes.done`).

Only numbers have longer forms than their own, and the bound is shown for them alone (`Varint.taken_of_decode`).
-/

namespace GridStack

namespace Wire

/-- Some bytes are shorter than others, or they are the same ones. -/
def NoLonger (short long : List UInt8) : Prop :=
  short.length < long.length ∨ short = long

namespace NoLonger

variable {short middle long : List UInt8}

/-- What is no longer has no more bytes. -/
theorem le (h : NoLonger short long) : short.length ≤ long.length := by
  rcases h with less | rfl
  · exact Nat.le_of_lt less
  · exact Nat.le_refl _

/-- What is no longer than bytes that are no longer than others is no longer than those. -/
theorem trans (h : NoLonger short middle) (h' : NoLonger middle long) : NoLonger short long := by
  rcases h' with less | rfl
  · exact .inl (Nat.lt_of_le_of_lt h.le less)
  · exact h

/-- Bytes of the same length are the same ones. -/
theorem eq_of_length (h : NoLonger short long) (same : short.length = long.length) : short = long :=
  h.resolve_left (Nat.not_lt.2 (Nat.le_of_eq same.symm))

/-- More bytes behind. -/
theorem append_right (short back : List UInt8) : NoLonger short (short ++ back) := by
  cases back with
  | nil => exact .inr (List.append_nil short).symm
  | cons b back =>
    left
    rw [List.length_append, List.length_cons]
    omega

/-- Other bytes in front. -/
theorem behind (h : NoLonger short long) (front : List UInt8) : NoLonger (front ++ short) (front ++ long) := by
  rcases h with less | rfl
  · left
    rw [List.length_append, List.length_append]
    omega
  · exact .inr rfl

/-- Other bytes behind. -/
theorem before (h : NoLonger short long) (back : List UInt8) : NoLonger (short ++ back) (long ++ back) := by
  rcases h with less | rfl
  · left
    rw [List.length_append, List.length_append]
    omega
  · exact .inr rfl

end NoLonger

end Wire

namespace Decoder

open Wire (NoLonger)

variable {α β : Type}

/-- What the decoder takes off an input completes some bytes to the form of the value, or to more than it. -/
def Completes (d : Decoder α) (front : List UInt8) (form : α → List UInt8) : Prop :=
  ∀ input value rest, d input = .ok (value, rest) →
    ∃ taken, input = taken ++ rest ∧ NoLonger (form value) (front ++ taken)

variable {d : Decoder α} {f : α → Decoder β} {front : List UInt8} {form : α → List UInt8}
  {whole : β → List UInt8}

/-- A decoder and the one behind it have both read what they read together. -/
theorem ok_of_bind {input rest : List UInt8} {b : β} (h : (d >>= f) input = .ok (b, rest)) :
    ∃ a between, d input = .ok (a, between) ∧ f a between = .ok (b, rest) := by
  cases first : d input with
  | error e =>
    rw [bind_of_error first] at h
    contradiction
  | ok r =>
    rw [bind_of_ok first] at h
    exact ⟨r.1, r.2, rfl, h⟩

/-- A decoder that has read a byte first. -/
theorem ok_of_byte {f : UInt8 → Decoder β} {input rest : List UInt8} {value : β}
    (h : (byte >>= f) input = .ok (value, rest)) :
    ∃ b input', input = b :: input' ∧ f b input' = .ok (value, rest) := by
  obtain ⟨b, between, first, h⟩ := ok_of_bind h
  cases input with
  | nil => contradiction
  | cons b input =>
    cases first
    exact ⟨_, _, rfl, h⟩

namespace Completes

/-- Nothing is taken when the form is complete. -/
theorem done {value : α} (complete : form value = front) : Completes (pure value) front form := by
  intro input _ _ eq
  cases eq
  exact ⟨[], rfl, .inr (complete.trans (List.append_nil front).symm)⟩

/-- A decoder that refuses takes nothing. -/
theorem fail (e : DecodeError) : Completes (Decoder.fail e) front form :=
  fun _ _ _ eq => nomatch eq

/-- What is completed by one decoder goes on to be completed by the next. -/
theorem bind (h : Completes d front form) (next : ∀ a, Completes (f a) (form a) whole) :
    Completes (d >>= f) front whole := by
  intro input b rest eq
  obtain ⟨a, between, eq, eq'⟩ := ok_of_bind eq
  obtain ⟨taken, rfl, short⟩ := h _ _ _ eq
  obtain ⟨more, rfl, short'⟩ := next a _ _ _ eq'
  refine ⟨taken ++ more, (List.append_assoc _ _ _).symm, ?_⟩
  -- The second decoder began behind the form of the first value, and what was taken for it is no shorter.
  rw [← List.append_assoc]
  exact short'.trans (short.before more)

/-- What has been read before stays in front. -/
theorem behind (h : Completes d [] form) (front : List UInt8) : Completes d front fun a => front ++ form a := by
  intro input a rest eq
  obtain ⟨taken, split, short⟩ := h input a rest eq
  exact ⟨taken, split, short.behind front⟩

/-- A part of a value, behind the parts that have been read before. -/
theorem part (h : Completes d [] form) (next : ∀ a, Completes (f a) (front ++ form a) whole) :
    Completes (d >>= f) front whole :=
  (h.behind front).bind next

end Completes

end Decoder

namespace Varint

open Decoder (ok_of_bind ok_of_byte)
open Wire (NoLonger)

/-- The number that begins with a byte that says that others follow, and its form. -/
theorem encodeWithin_high {room high : Nat} {b : UInt8} (follows : ¬ b.toNat < 128) {taken : List UInt8}
    (some : taken ≠ []) (short : NoLonger (encodeWithin room high) taken) :
    NoLonger (encodeWithin (room + 1) (b.toNat - 128 + 128 * high)) (b :: taken) := by
  have byte : b.toNat < 256 := b.toNat_lt
  have one : 0 < taken.length := List.length_pos_iff.2 some
  rw [encodeWithin]
  by_cases low : b.toNat - 128 + 128 * high < 128
  · -- The bytes that follow add nothing, and one byte is enough.
    rw [if_pos low]
    exact .inl (Nat.succ_lt_succ one)
  · have digit : (b.toNat - 128 + 128 * high) % 128 + 128 = b.toNat := by omega
    have others : (b.toNat - 128 + 128 * high) / 128 = high := by omega
    rw [if_neg low, digit, others, UInt8.ofNat_toNat]
    exact short.behind [b]

/-- A number that is read is one byte, or a byte that says that others follow and the number that they are. -/
theorem cases_of_decodeWithin {lastByte room n : Nat} {input rest : List UInt8}
    (read : decodeWithin lastByte (room + 1) input = .ok (n, rest)) :
    ∃ b behind, input = b :: behind ∧
      ((b.toNat < 128 ∧ ¬ (room = 0 ∧ lastByte < b.toNat) ∧ n = b.toNat ∧ rest = behind) ∨
        (¬ b.toNat < 128 ∧ ∃ high, n = b.toNat - 128 + 128 * high ∧
          decodeWithin lastByte room behind = .ok (high, rest))) := by
  rw [decodeWithin] at read
  obtain ⟨b, behind, split, read'⟩ := ok_of_byte read
  refine ⟨b, behind, split, ?_⟩
  split at read'
  · next low =>
    split at read'
    · contradiction
    · next allowed =>
      cases read'
      exact .inl ⟨low, allowed, rfl, rfl⟩
  · next follows =>
    obtain ⟨high, between, others, eq⟩ := ok_of_bind read'
    cases eq
    exact .inr ⟨follows, high, rfl, others⟩

/-- A number that is read is within its bound, and what is taken for it is no shorter than its form. -/
theorem taken_of_decodeWithin {lastByte room n : Nat} {input rest : List UInt8} (small : lastByte < 128)
    (read : decodeWithin lastByte (room + 1) input = .ok (n, rest)) : n < (lastByte + 1) * 128 ^ room ∧
      ∃ taken, taken ≠ [] ∧ input = taken ++ rest ∧ NoLonger (encodeWithin (room + 1) n) taken := by
  obtain ⟨b, behind, rfl, ⟨low, allowed, rfl, rfl⟩ | ⟨follows, high, rfl, others⟩⟩ :=
    cases_of_decodeWithin read
  · have own : encodeWithin (room + 1) b.toNat = [b] := by rw [encodeWithin, if_pos low, UInt8.ofNat_toNat]
    refine ⟨?_, [b], List.cons_ne_nil _ _, rfl, .inr own⟩
    -- Only the last byte that has room is compared with the bound; another one is below it anyway.
    cases room with
    | zero => omega
    | succ room =>
      have some : 0 < (lastByte + 1) * 128 ^ room := Nat.mul_pos (Nat.succ_pos _) (Nat.pow_pos (by decide))
      rw [Nat.pow_succ, ← Nat.mul_assoc]
      omega
  · cases room with
    | zero => contradiction
    | succ room =>
      obtain ⟨less, taken, some, rfl, short⟩ := taken_of_decodeWithin small others
      refine ⟨?_, b :: taken, List.cons_ne_nil _ _, rfl, encodeWithin_high follows some short⟩
      have byte : b.toNat < 256 := b.toNat_lt
      rw [Nat.pow_succ, ← Nat.mul_assoc]
      omega

/-- A width allows the numbers below a limit. -/
def Allows (width : Width) (limit : Nat) : Prop :=
  ∃ room, width.bytes = room + 1 ∧ width.lastByte < 128 ∧ limit = (width.lastByte + 1) * 128 ^ room

/-- A number of 32 bits is below `2 ^ 32`, as its fifth byte is bounded. -/
theorem w32_allows : Allows .w32 (2 ^ 32) :=
  ⟨4, rfl, by decide, by decide⟩

/-- A number of 64 bits is below `2 ^ 64`, as its tenth byte is bounded. -/
theorem w64_allows : Allows .w64 (2 ^ 64) :=
  ⟨9, rfl, by decide, by decide⟩

/-- A number that is read is below the limit, and what is taken for it is no shorter than its form. -/
theorem taken_of_decode {width : Width} {limit n : Nat} {input rest : List UInt8} (allows : Allows width limit)
    (read : decode width input = .ok (n, rest)) :
    n < limit ∧ ∃ taken, input = taken ++ rest ∧ NoLonger (encode width n) taken := by
  obtain ⟨room, bytes, small, rfl⟩ := allows
  unfold decode at read
  unfold encode
  rw [bytes] at read ⊢
  obtain ⟨less, taken, -, split, short⟩ := taken_of_decodeWithin small read
  exact ⟨less, taken, split, short⟩

/-- A folding is got back from the signed number. -/
theorem fold_unfolded (n : Nat) : fold (unfolded n) = n := by
  unfold unfolded
  split
  · next even =>
    show 2 * (n / 2) = n
    omega
  · next odd =>
    show 2 * (n / 2) + 1 = n
    omega

/-- A signed number has one bit less than its folding. -/
theorem unfolded_within {n limit : Nat} (small : n < 2 * limit) :
    -(limit : Int) ≤ unfolded n ∧ unfolded n < limit := by
  unfold unfolded
  split
  · have size : (Int.ofNat (n / 2) : Int) = (n / 2 : Nat) := rfl
    omega
  · omega

end Varint

namespace Decoder

open Varint (Allows w32_allows w64_allows)
open Wire (NoLonger)

section Numbers

variable {α : Type}

/-- A number that is not put into another type. -/
theorem decode_completes {width : Width} {limit : Nat} (allows : Allows width limit) :
    Completes (Varint.decode width) [] (Varint.encode width) :=
  fun _ _ _ read => (Varint.taken_of_decode allows read).2

/-- A number that is put into a type that has room for it. -/
theorem number_completes {width : Width} {limit : Nat} (allows : Allows width limit) {g : Nat → α}
    {form : α → List UInt8} (same : ∀ n < limit, form (g n) = Varint.encode width n) :
    Completes (do let n ← Varint.decode width; return g n) [] form := by
  intro input value rest read
  obtain ⟨n, between, first, eq⟩ := ok_of_bind read
  cases eq
  obtain ⟨less, taken, split, short⟩ := Varint.taken_of_decode allows first
  rw [same n less]
  exact ⟨taken, split, short⟩

/-- What is taken for a number without a sign. -/
theorem uint32_completes : Completes uint32 [] Wire.uint32 := by
  refine number_completes w32_allows fun n small => ?_
  unfold Wire.uint32
  rw [UInt32.toNat_ofNat_of_lt' small]

/-- What is taken for an operand, whose sign is folded in. -/
theorem int32_completes : Completes int32 [] Wire.int32 := by
  refine number_completes w32_allows fun n small => ?_
  obtain ⟨above, below⟩ := @Varint.unfolded_within n (2 ^ 31) small
  unfold Wire.int32
  rw [Int32.toInt_ofInt_of_le above below, Varint.fold_unfolded]

/-- What is taken for a literal, whose sign is folded in. -/
theorem int64_completes : Completes int64 [] Wire.int64 := by
  refine number_completes w64_allows fun n small => ?_
  obtain ⟨above, below⟩ := @Varint.unfolded_within n (2 ^ 63) small
  unfold Wire.int64
  rw [Int64.toInt_ofInt_of_le above below, Varint.fold_unfolded]

/-- What is taken for the number of bytes or items that follow. -/
theorem length_completes : Completes length [] Wire.length :=
  decode_completes w64_allows

/-- What is taken for the number of a kind. -/
theorem kind_completes : Completes kind [] Wire.kind :=
  decode_completes w32_allows

end Numbers

/-- A byte is taken as it is. -/
theorem byte_completes : Completes byte [] ([·]) := by
  intro input b rest read
  cases input with
  | nil => contradiction
  | cons b' rest' =>
    cases read
    exact ⟨[b], rfl, .inr rfl⟩

/-- Bytes are taken as they are, and are as many as their number in front of them says. -/
theorem bytes_completes (count : Nat) :
    Completes (bytes count) (Wire.length count) fun content => Wire.length content.length ++ content := by
  intro input content rest read
  unfold bytes at read
  split at read
  · contradiction
  · next enough =>
    cases read
    have size : (input.take count).length = count := by
      rw [List.length_take]
      omega
    refine ⟨input.take count, (List.take_append_drop count input).symm, .inr ?_⟩
    exact congrArg (Wire.length · ++ input.take count) size

/-- The text of a UTF-8 form has this form. -/
theorem utf8_completes (content : List UInt8) :
    Completes (utf8 content) (Wire.length content.length ++ content) Wire.text := by
  unfold utf8
  cases decoded : String.fromUTF8? ⟨content.toArray⟩ with
  | none => exact .fail _
  | some s =>
    refine .done ?_
    unfold String.fromUTF8? at decoded
    split at decoded
    · cases decoded
      rfl
    · contradiction

/-- What is taken for a text. -/
theorem text_completes : Completes text [] Wire.text :=
  length_completes.bind fun count => (bytes_completes count).bind utf8_completes

section Items

variable {α : Type} {item : Decoder α} {form : α → List UInt8}

/-- What is taken for an optional value. -/
theorem option_completes (h : Completes item [] form) : Completes (option item) [] (Wire.option form) := by
  refine byte_completes.bind fun b => ?_
  by_cases absent : b = 0
  · rw [if_pos absent, absent]
    exact .done rfl
  · by_cases present : b = 1
    · rw [if_neg absent, if_pos present, present]
      exact h.part fun x => .done rfl
    · rw [if_neg absent, if_neg present]
      exact .fail _

/-- The items of a list, behind anything that stands for their number. -/
theorem replicate_completes (h : Completes item [] form) (count : Nat) (front : Nat → List UInt8) :
    Completes (replicate count item) (front count) fun items => front items.length ++ items.flatMap form := by
  induction count generalizing front with
  | zero => exact .done (List.append_nil _)
  | succ n ih =>
    refine h.part fun x => (ih fun count => front (count + 1) ++ form x).bind fun items => .done ?_
    -- The form of the first item is now in front of those of the others.
    rw [List.flatMap_cons, List.length_cons, List.append_assoc]

/-- What is taken for a list. -/
theorem list_completes (h : Completes item [] form) : Completes (list item) [] (Wire.list form) :=
  length_completes.bind fun count => replicate_completes h count Wire.length

end Items

section Enumerations

variable {α : Type} [BEq α] [LawfulBEq α]

/-- What is taken for a value without content, if no other value has its place. -/
theorem enumeration_completes {all : List α} (distinct : all.Nodup) :
    Completes (enumeration all) [] (Wire.enumeration all) := by
  refine kind_completes.bind fun n => ?_
  cases found : all[n]? with
  | none => exact .fail _
  | some value =>
    refine .done ?_
    -- The value is at no other place, so the number that has been read is the one that is written.
    obtain ⟨inside, rfl⟩ := List.getElem?_eq_some_iff.1 found
    unfold Wire.enumeration
    rw [distinct.idxOf_getElem n inside]

end Enumerations

section Images

/-- What is taken for an opcode. -/
theorem opcode_completes : Completes opcode [] Wire.opcode :=
  enumeration_completes (by decide)

/-- What is taken for an instruction. -/
theorem instruction_completes : Completes instruction [] Wire.instruction := by
  have operand : Completes (option int32) [] (Wire.option Wire.int32) := option_completes int32_completes
  exact opcode_completes.part fun _ => operand.part fun _ => operand.part fun _ => .done rfl

/-- What is taken for a symbol. -/
theorem symbol_completes : Completes symbol [] Wire.symbol :=
  text_completes.part fun _ => uint32_completes.part fun _ => .done rfl

/-- What is taken for an image. -/
theorem image_completes : Completes image [] Image.toBytes :=
  (list_completes instruction_completes).part fun _ =>
    (list_completes symbol_completes).part fun _ => .done rfl

end Images

section Programs

/-- What is taken for a type name. -/
theorem typeName_completes : Completes typeName [] Wire.typeName := by
  refine kind_completes.bind fun n => ?_
  match n with
  | 0 => exact .done rfl
  | 1 => exact .done rfl
  | 2 => exact text_completes.part fun _ => .done rfl
  | n + 3 => exact .fail _

/-- What is taken for an operator with one operand. -/
theorem unaryOp_completes : Completes unaryOp [] Wire.unaryOp :=
  enumeration_completes (by decide)

/-- What is taken for an operator with two operands. -/
theorem binaryOp_completes : Completes binaryOp [] Wire.binaryOp :=
  enumeration_completes (by decide)

/-- What is taken for an assignment operator. -/
theorem assignOp_completes : Completes assignOp [] Wire.assignOp := by
  refine kind_completes.bind fun n => ?_
  match n with
  | 0 => exact .done rfl
  | 1 => exact binaryOp_completes.part fun _ => .done rfl
  | n + 2 => exact .fail _

/-- What is taken for an expression. -/
theorem expr_completes (bound : Nat) : Completes (expr bound) [] Wire.expr := by
  induction bound with
  | zero => exact .fail _
  | succ bound ih =>
    rw [expr]
    -- Every part that is read puts its form behind the number of the kind.
    refine kind_completes.bind fun n => ?_
    match n with
    | 0 => exact int64_completes.part fun value => .done (by rw [Wire.expr])
    | 1 => exact text_completes.part fun name => .done (by rw [Wire.expr])
    | 2 => exact ih.part fun inner => .done (by rw [Wire.expr])
    | 3 => exact unaryOp_completes.part fun op => ih.part fun operand => .done (by rw [Wire.expr])
    | 4 =>
      exact binaryOp_completes.part fun op => ih.part fun lhs => ih.part fun rhs => .done (by rw [Wire.expr])
    | 5 =>
      exact assignOp_completes.part fun op => text_completes.part fun target => ih.part fun value =>
        .done (by rw [Wire.expr])
    | 6 =>
      refine text_completes.part fun name => (list_completes ih).part fun args =>
        (option_completes ih).part fun receiver => (list_completes typeName_completes).part fun types => .done ?_
      rw [Wire.expr, Wire.exprs_eq_flatMap, Wire.exprOption_eq_option]
      rfl
    | n + 7 => exact .fail _

/-- What is taken for a declarator. -/
theorem declarator_completes (bound : Nat) : Completes (declarator bound) [] Wire.declarator :=
  text_completes.part fun _ => (option_completes (expr_completes bound)).part fun _ => .done rfl

/-- What is taken for texts. -/
theorem texts_complete : Completes (list text) [] (Wire.list Wire.text) :=
  list_completes text_completes

/-- What is taken for a local declaration. -/
theorem varDecl_completes (bound : Nat) : Completes (varDecl bound) [] Wire.varDecl :=
  typeName_completes.part fun _ => texts_complete.part fun _ =>
    (list_completes (declarator_completes bound)).part fun _ => .done rfl

/-- What is taken for a statement. -/
theorem stmt_completes (bound : Nat) : Completes (stmt bound) [] Wire.stmt := by
  induction bound with
  | zero => exact .fail _
  | succ bound ih =>
    have value : Completes (expr bound) [] Wire.expr := expr_completes bound
    rw [stmt]
    refine kind_completes.bind fun n => ?_
    match n with
    | 0 =>
      refine (list_completes ih).part fun body => .done ?_
      rw [Wire.stmt, Wire.stmts_eq_flatMap]
      rfl
    | 1 => exact value.part fun e => .done (by rw [Wire.stmt])
    | 2 => exact (varDecl_completes bound).part fun decl => .done (by rw [Wire.stmt])
    | 3 =>
      refine value.part fun cond => ih.part fun yes => (option_completes ih).part fun no => .done ?_
      rw [Wire.stmt, Wire.stmtOption_eq_option]
    | 4 => exact value.part fun cond => ih.part fun body => .done (by rw [Wire.stmt])
    | 5 => exact (option_completes value).part fun result => .done (by rw [Wire.stmt])
    | n + 6 => exact .fail _

/-- What is taken for a parameter. -/
theorem param_completes : Completes param [] Wire.param :=
  text_completes.part fun _ => typeName_completes.part fun _ => .done rfl

/-- What is taken for a function. -/
theorem functionDecl_completes (bound : Nat) : Completes (functionDecl bound) [] Wire.functionDecl :=
  text_completes.part fun _ => (list_completes param_completes).part fun _ =>
    typeName_completes.part fun _ => (list_completes (stmt_completes bound)).part fun _ =>
      texts_complete.part fun _ => texts_complete.part fun _ =>
        texts_complete.part fun _ => .done rfl

/-- What is taken for a program. -/
theorem program_completes (bound : Nat) : Completes (program bound) [] Program.toBytes :=
  (list_completes (functionDecl_completes bound)).part fun _ => .done rfl

end Programs

/-- An input of which the value has been read is no shorter than the form, whatever stands behind. -/
theorem Completes.of_run {α : Type} {d : Decoder α} {form : α → List UInt8} (h : Completes d [] form)
    {input : List UInt8} {value : α} (read : d.run input = .ok value) : NoLonger (form value) input := by
  unfold run at read
  cases result : d input with
  | error e =>
    rw [result] at read
    contradiction
  | ok r =>
    rw [result] at read
    cases read
    obtain ⟨taken, rfl, short⟩ := h _ _ _ result
    exact short.trans (.append_right taken r.2)

end Decoder

namespace Wire

/-- What a form that is no longer than an input comes to, when it is itself read as the value. -/
theorem NoLonger.shortest {α : Type} {toBytes : α → List UInt8}
    {ofBytes : List UInt8 → Except DecodeError α}
    (reads : ∀ x, (toBytes x).length < 2 ^ 64 → ∀ rest, ofBytes (toBytes x ++ rest) = .ok x) {x : α}
    {input : List UInt8} (short : NoLonger (toBytes x) input) : (toBytes x).length ≤ input.length ∧
      ((toBytes x).length = input.length → toBytes x = input) ∧
      (input.length < 2 ^ 64 → ofBytes (toBytes x) = .ok x) := by
  refine ⟨short.le, short.eq_of_length, fun small => ?_⟩
  have again := reads x (Nat.lt_of_le_of_lt short.le small) []
  rwa [List.append_nil] at again

/-- Of all inputs that are read as a program or as an image, the bytes that are written for it are the shortest
one, and no other one is as short. -/
theorem encoding_shortest :
    (∀ input p, Program.ofBytes input = .ok p → p.toBytes.length ≤ input.length ∧
        (p.toBytes.length = input.length → p.toBytes = input) ∧
        (input.length < 2 ^ 64 → Program.ofBytes p.toBytes = .ok p)) ∧
      ∀ input image, Image.ofBytes input = .ok image → image.toBytes.length ≤ input.length ∧
        (image.toBytes.length = input.length → image.toBytes = input) ∧
        (input.length < 2 ^ 64 → Image.ofBytes image.toBytes = .ok image) :=
  ⟨fun input _ read => ((Decoder.program_completes input.length).of_run read).shortest Program.ofBytes_append,
    fun _ _ read => (Decoder.image_completes.of_run read).shortest Image.ofBytes_append⟩

/-- A program that returns a literal. -/
def brief : Program :=
  ⟨[⟨"f", [], .int, [.ret (some (.int (-1)))], [], [], []⟩]⟩

/-- An input for it, with a length, kinds and the literal longer than they need be, and a byte behind it. -/
def lengthyProgram : List UInt8 :=
  [129, 0, 1, 102, 128, 0, 128, 0, 1, 133, 0, 1, 128, 128, 0, 129, 128, 0, 0, 0, 0, 9]

/-- An image of one instruction. -/
def single : Image :=
  ⟨[⟨.const, some (-2), none⟩], []⟩

/-- An input for it, with the number of instructions, the opcode and the operand longer than they need be, and a
byte behind it. -/
def lengthyImage : List UInt8 :=
  [129, 128, 0, 129, 0, 1, 131, 128, 0, 0, 0, 9]

set_option maxRecDepth 1000 in
/-- Both are read from these inputs, of which they need 13 of 22 bytes and 6 of 12. -/
theorem encoding_shortest_lengthy :
    (Program.ofBytes lengthyProgram = .ok brief ∧ brief.toBytes.length ≤ lengthyProgram.length ∧
        Program.ofBytes brief.toBytes = .ok brief) ∧
      Image.ofBytes lengthyImage = .ok single ∧ single.toBytes.length ≤ lengthyImage.length ∧
        Image.ofBytes single.toBytes = .ok single := by
  have program : Program.ofBytes lengthyProgram = .ok brief := by rfl
  have image : Image.ofBytes lengthyImage = .ok single := by rfl
  obtain ⟨shorter, -, again⟩ := encoding_shortest.1 _ _ program
  obtain ⟨shorter', -, again'⟩ := encoding_shortest.2 _ _ image
  exact ⟨⟨program, shorter, again (by decide)⟩, image, shorter', again' (by decide)⟩

end Wire

end GridStack
