import Mathlib
import GridStack.Proofs.Draft.Numbering

/-!
# The plain listing loses nothing

The plain listing of an image is what the machine is handed. An instruction on a line shows its second
operand only behind a first, and an operand that is missing leaves no trace. As long as every instruction
has the operands that it takes (`Image.Complete`), which those of a linked program do, the listing still
determines the code (`Image.text_lossless`).

A line is made of words with blanks between them, and the listing is made of lines with line ends between
them. No blank is in a word, and no line end in a line, so that either is taken apart in one way only
(`Listing.intercalate_inj`). What remains is to tell single words: names by looking at all of them, and
operands as decimal numbers.
-/

namespace GridStack

namespace Instruction

/-- An instruction that has the operands that it takes, and no others. -/
structure Complete (i : Instruction) : Prop where
  first : i.a.isSome ↔ 1 ≤ i.op.arity
  second : i.b.isSome ↔ 2 ≤ i.op.arity

/-- Whether an instruction has its operands can be looked up. -/
instance (i : Instruction) : Decidable i.Complete :=
  decidable_of_iff ((i.a.isSome ↔ 1 ≤ i.op.arity) ∧ (i.b.isSome ↔ 2 ≤ i.op.arity))
    ⟨fun h => ⟨h.1, h.2⟩, fun h => ⟨h.first, h.second⟩⟩

/-- What the line of an instruction consists of: the name and the operands. -/
def words (i : Instruction) : List String :=
  i.op.mnemonic :: i.operands.map operandText

end Instruction

/-- Every instruction has the operands that it takes. -/
def Image.Complete (image : Image) : Prop :=
  ∀ i ∈ image.code, i.Complete

/-- Whether all instructions have their operands can be looked up. -/
instance (image : Image) : Decidable image.Complete :=
  inferInstanceAs (Decidable (∀ i ∈ image.code, i.Complete))

namespace Listing

/-- Texts with a character between them are found again, when the character is in none of them. -/
theorem intercalate_inj {sep : Char} {texts texts' : List String} (some : texts ≠ []) (some' : texts' ≠ [])
    (free : ∀ s ∈ texts, sep ∉ s.toList) (free' : ∀ s ∈ texts', sep ∉ s.toList)
    (same : (String.singleton sep).intercalate texts = (String.singleton sep).intercalate texts') :
    texts = texts' := by
  have split : ∀ {texts : List String}, texts ≠ [] → (∀ s ∈ texts, sep ∉ s.toList) →
      ((String.singleton sep).intercalate texts).toList.splitOn sep = texts.map String.toList := by
    intro texts some free
    rw [String.toList_intercalate, String.toList_singleton]
    exact List.splitOn_intercalate sep (List.forall_mem_map.2 free) (mt List.map_eq_nil_iff.1 some)
  have parts : texts.map String.toList = texts'.map String.toList := by
    rw [← split some free, ← split some' free', same]
  exact List.map_injective_iff.2 (fun _ _ => String.toList_inj.1) parts

/-- A character is in none of the texts and does not stand between them, so it is not in what they make up. -/
theorem not_mem_intercalate {sep c : Char} {texts : List String} (other : c ≠ sep)
    (free : ∀ s ∈ texts, c ∉ s.toList) : c ∉ ((String.singleton sep).intercalate texts).toList := by
  induction texts with
  | nil => exact List.not_mem_nil
  | cons s texts ih =>
    obtain ⟨first, others⟩ := List.forall_mem_cons.1 free
    cases texts with
    | nil => simpa using first
    | cons s' texts =>
      have between : c ∉ (String.singleton sep).toList := by
        rw [String.toList_singleton]
        exact mt List.mem_singleton.1 other
      rw [String.intercalate_cons_cons, String.toList_append, String.toList_append]
      exact List.not_mem_append (List.not_mem_append first between) (ih others)

/-- Lines that each end with a character have this character between them, and nothing behind the last. -/
theorem join_eq_intercalate (sep : String) (lines : List String) :
    String.join (lines.map (· ++ sep)) = sep.intercalate (lines ++ [""]) := by
  induction lines with
  | nil => simp
  | cons line lines ih =>
    obtain ⟨next, others, cons⟩ := List.exists_cons_of_ne_nil (List.append_ne_nil_of_right_ne_nil lines
      (List.cons_ne_nil "" []))
    rw [List.map_cons, String.join_cons, ih, List.cons_append, cons]
    simp

end Listing

section Operands

/-- An operand is known from its text. -/
theorem operandText_inj {n n' : Int32} (same : operandText n = operandText n') : n = n' :=
  Int32.toInt_inj.1 (Int.repr_inj.1 same)

/-- The text of an operand consists of digits and a sign. -/
theorem isDigit_of_mem_operandText {n : Int32} {c : Char} (mem : c ∈ (operandText n).toList) :
    c.isDigit ∨ c = '-' := by
  have digits : ∀ {m : Nat}, c ∈ m.repr.toList → c.isDigit := by
    intro m mem
    rw [Nat.toList_repr] at mem
    exact Nat.isDigit_of_mem_toDigits (by decide) (by decide) mem
  have shown : operandText n = n.toInt.repr := rfl
  rw [shown] at mem
  cases value : n.toInt with
  | ofNat m =>
    rw [value] at mem
    exact .inl (digits mem)
  | negSucc m =>
    rw [value] at mem
    have split : (Int.negSucc m).repr = "-" ++ m.succ.repr := rfl
    rw [split, String.toList_append] at mem
    rcases List.mem_append.1 mem with sign | number
    · exact .inr (List.mem_singleton.1 sign)
    · exact .inl (digits number)

/-- Operations have different names. -/
theorem Opcode.mnemonic_inj {op op' : Opcode} (same : op.mnemonic = op'.mnemonic) : op = op' := by
  have listed : ∀ op : Opcode, op ∈ Opcode.all := fun op => by cases op <;> decide
  have differ : (Opcode.all.map mnemonic).Nodup := by decide
  exact List.inj_on_of_nodup_map differ (listed op) (listed op') same

end Operands

namespace Instruction

variable {i i' : Instruction}

namespace Complete

variable {op : Opcode} {r r' : Int32}

/-- An instruction without operands is complete. -/
theorem of_arity_zero (none : op.arity = 0) : Complete ⟨op, .none, .none⟩ :=
  ⟨by simp [none], by simp [none]⟩

/-- An instruction with its one operand is complete. -/
theorem of_arity_one (one : op.arity = 1) : Complete ⟨op, some r, none⟩ :=
  ⟨by simp [one], by simp [one]⟩

/-- An instruction with both of its operands is complete. -/
theorem of_arity_two (two : op.arity = 2) : Complete ⟨op, some r, some r'⟩ :=
  ⟨by simp [two], by simp [two]⟩

end Complete

/-- There is neither a blank nor a line end in a word. -/
theorem free_of_mem_words {word : String} (mem : word ∈ i.words) :
    ' ' ∉ word.toList ∧ '\n' ∉ word.toList := by
  rcases List.mem_cons.1 mem with rfl | operand
  · cases i.op <;> decide
  · obtain ⟨n, -, rfl⟩ := List.mem_map.1 operand
    constructor <;>
    · intro mem
      rcases isDigit_of_mem_operandText mem with digit | sign
      · exact absurd digit (by decide)
      · exact absurd sign (by decide)

/-- The text of an instruction that has its operands is made of its words. -/
theorem Complete.text_eq (h : i.Complete) : i.text = (String.singleton ' ').intercalate i.words := by
  obtain ⟨op, a, b⟩ := i
  obtain ⟨first, second⟩ := h
  -- An instruction with a second operand has a first one, so that both are shown.
  cases a with
  | none =>
    cases b with
    | none => rfl
    | some s =>
      have two : 2 ≤ op.arity := second.1 rfl
      have one : (none : Option Int32).isSome := first.2 (Nat.le_of_succ_le two)
      contradiction
  | some r =>
    cases b with
    | none => simp [text, words, operands]
    | some s => simp [text, words, operands, String.append_assoc]

/-- No line end is in a line. -/
theorem Complete.no_line_end (h : i.Complete) : '\n' ∉ i.text.toList := by
  rw [h.text_eq]
  exact Listing.not_mem_intercalate (by decide) fun word mem => (free_of_mem_words mem).2

/-- An instruction that has its operands is known from its words. -/
theorem Complete.eq_of_words (h : i.Complete) (h' : i'.Complete) (same : i.words = i'.words) : i = i' := by
  obtain ⟨name, numbers⟩ := List.cons.inj same
  obtain ⟨op, a, b⟩ := i
  obtain ⟨op', a', b'⟩ := i'
  obtain rfl : op = op' := Opcode.mnemonic_inj name
  have listed : a.toList ++ b.toList = a'.toList ++ b'.toList :=
    List.map_injective_iff.2 (fun _ _ => operandText_inj) numbers
  -- There is a first operand on both sides or on neither.
  have both : a.isSome ↔ a'.isSome := h.first.trans h'.first.symm
  have count : a.toList.length = a'.toList.length := by simp only [Option.length_toList, both]
  obtain ⟨first, second⟩ := List.append_inj listed count
  obtain rfl : a = a' := by simpa only [Option.head?_toList] using congrArg List.head? first
  obtain rfl : b = b' := by simpa only [Option.head?_toList] using congrArg List.head? second
  rfl

/-- An instruction that has its operands is known from its line. -/
theorem Complete.eq_of_text (h : i.Complete) (h' : i'.Complete) (same : i.text = i'.text) : i = i' := by
  rw [h.text_eq, h'.text_eq] at same
  exact h.eq_of_words h' (Listing.intercalate_inj (List.cons_ne_nil _ _) (List.cons_ne_nil _ _)
    (fun _ mem => (free_of_mem_words mem).1) (fun _ mem => (free_of_mem_words mem).1) same)

/-- Instructions that have their operands are known from their lines. -/
theorem eq_of_texts {code code' : List Instruction} (h : ∀ i ∈ code, i.Complete)
    (h' : ∀ i ∈ code', i.Complete) (same : code.map text = code'.map text) : code = code' := by
  induction code generalizing code' with
  | nil => exact (List.map_eq_nil_iff.1 same.symm).symm
  | cons i code ih =>
    obtain ⟨i', rest, rfl, line, lines⟩ := List.map_eq_cons_iff.1 same.symm
    obtain ⟨first, others⟩ := List.forall_mem_cons.1 h
    obtain ⟨first', others'⟩ := List.forall_mem_cons.1 h'
    rw [first.eq_of_text first' line.symm, ih others others' lines.symm]

end Instruction

/-- The lines of an image whose instructions have their operands are known from its plain listing. -/
theorem Image.Complete.texts_eq {image image' : Image} (h : image.Complete) (h' : image'.Complete)
    (same : image.text = image'.text) :
    image.code.map Instruction.text = image'.code.map Instruction.text := by
  have shape (image : Image) : image.text
      = (String.singleton '\n').intercalate (image.code.map Instruction.text ++ [""]) := by
    rw [← Listing.join_eq_intercalate, List.map_map]
    rfl
  have free {image : Image} (h : image.Complete) :
      ∀ s ∈ image.code.map Instruction.text ++ [""], '\n' ∉ s.toList := by
    refine List.forall_mem_append.2 ⟨List.forall_mem_map.2 fun i mem => (h i mem).no_line_end, ?_⟩
    exact List.forall_mem_singleton.2 List.not_mem_nil
  have some (lines : List String) : lines ++ [""] ≠ [] :=
    List.append_ne_nil_of_right_ne_nil lines (List.cons_ne_nil "" [])
  rw [shape, shape] at same
  exact List.append_cancel_right (Listing.intercalate_inj (some _) (some _) (free h) (free h') same)

section Linked

open Layout (resolve)

/-- What is kept of the code of a function has its operands. -/
theorem Site.Admits.complete {site : Site} {may : String → Prop} {limit : Nat} {i : Instr}
    (h : site.Admits may limit i) (kept : i.isMarker = false) (address : Label → Int32) :
    (resolve address i).Complete := by
  cases h with
  | marker label => contradiction
  | number | offset | own | entry | halt | push | pop | jumpIf => exact .of_arity_one rfl
  | copy => exact .of_arity_two rfl
  | plain bare effect => exact .of_arity_zero bare

variable {program : Program} {options : Options} {image : Image}

/-- The instructions of a linked program have their operands. -/
theorem Program.link_complete (links : program.link options = .ok image) : image.Complete := by
  obtain ⟨object, compiled, laid⟩ := Check.bind_ok links
  obtain ⟨functions, checked, generated⟩ := Program.compile_ok compiled
  intro i mem
  rw [Layout.instructions_ok (Layout.ofRoutines_ok laid).2] at mem
  obtain ⟨drafted, kept, rfl⟩ := List.mem_map.1 mem
  obtain ⟨listed, unmarked⟩ := List.mem_filter.1 kept
  obtain ⟨r, routine, part⟩ := List.mem_flatMap.1 listed
  obtain ⟨site, limit, -, written, -⟩ := Program.exists_site (Program.check_ok checked) generated routine
  exact (written drafted part).complete (by simpa using unmarked) _

end Linked

/-- The plain listing of code in which every instruction has its operands determines the code, and so does
that of every linked program. -/
theorem Image.text_lossless :
    (∀ image image' : Image, image.Complete → image'.Complete → image.text = image'.text →
        image.code = image'.code) ∧
      ∀ (program : Program) (options : Options) (image : Image), program.link options = .ok image →
        image.Complete :=
  ⟨fun _ _ h h' same => Instruction.eq_of_texts h h' (h.texts_eq h' same), fun _ _ _ => Program.link_complete⟩

/-- A linked program, with its symbols and without them. -/
theorem Image.text_lossless_nameless : ∃ image image' : Image, Demo.output.link {} = .ok image ∧
    image'.symbols = [] ∧ image.Complete ∧ image'.Complete ∧ image.text = image'.text ∧
      image.code = image'.code := by
  obtain ⟨image, links⟩ : ∃ image, Demo.output.link {} = .ok image := ⟨_, rfl⟩
  have complete : image.Complete := Image.text_lossless.2 _ _ image links
  have nameless : (⟨image.code, []⟩ : Image).Complete := complete
  have same : image.text = (⟨image.code, []⟩ : Image).text := rfl
  exact ⟨image, _, links, rfl, complete, nameless, same, Image.text_lossless.1 _ _ complete nameless same⟩

/-- Without its first operand a copy looks like one that has neither. -/
example : Instruction.text ⟨.copy, none, some 3⟩ = Instruction.text ⟨.copy, none, none⟩ := rfl

end GridStack
