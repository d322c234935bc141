import GridStack.Wire.Format
import Mathlib.Algebra.Group.Nat.Defs

/-!
# Reading forms

`Decoder.Reads d bound form value` says what the decoder `d` does with the form of a value: it takes the
whole form off whatever input begins with it and gives the value, and an input that ends inside the form
is found to be too short before anything else can be wrong with it. Both parts are kept when decoders are
put one behind the other (`Reads.bind`), and so the building blocks of the wire format have them, and with
these every decoder that is put together from them.

Decoders of trees are bounded by the number of bytes of the input. A node takes at least one byte for its
kind, so what is behind this byte is read with a bound that is smaller by one (`Reads.node`).

Lists and texts begin with a length of 64 bits, so only forms of fewer than `2 ^ 64` bytes are spoken of.
-/

namespace GridStack

namespace Decoder

variable {α β : Type}

/-- A decoder reads the form of a value, in inputs that are as long as its bound allows. -/
structure Reads (d : Decoder α) (bound : Nat) (form : List UInt8) (value : α) : Prop where
  /-- What begins with the form is the value and the bytes behind the form. -/
  whole : form.length < 2 ^ 64 → form.length ≤ bound → ∀ rest, d (form ++ rest) = .ok (value, rest)
  /-- What is only a front part of the form is too short. -/
  part : form.length < 2 ^ 64 → ∀ front back, form = front ++ back → back ≠ [] → front.length ≤ bound →
    d front = .error .unexpectedEnd

variable {d : Decoder α} {f : α → Decoder β} {bound : Nat} {form form' : List UInt8} {a : α} {b : β}

/-- A decoder behind one that has read a value goes on with it. -/
theorem bind_of_ok {input rest : List UInt8} (h : d input = .ok (a, rest)) : (d >>= f) input = f a rest := by
  change Except.bind (d input) (fun r => f r.1 r.2) = _
  rw [h]
  rfl

/-- A decoder behind one that fails is not asked. -/
theorem bind_of_error {input : List UInt8} {e : DecodeError} (h : d input = .error e) :
    (d >>= f) input = .error e := by
  change Except.bind (d input) (fun r => f r.1 r.2) = _
  rw [h]
  rfl

namespace Reads

/-- Only forms of fewer than `2 ^ 64` bytes have to be looked at. -/
theorem of_small (h : form.length < 2 ^ 64 → Reads d bound form a) : Reads d bound form a :=
  ⟨fun small => (h small).whole small, fun small => (h small).part small⟩

/-- Nothing is read for a value that is known. -/
theorem pure (bound : Nat) (value : α) : Reads (Pure.pure value) bound [] value where
  whole _ _ _ := rfl
  part _ front back split some := by
    obtain ⟨-, rfl⟩ := List.append_eq_nil_iff.1 split.symm
    contradiction

/-- A form behind another one, read with a bound that leaves out some bytes of the first. -/
theorem behind {less : Nat} (h : Reads d bound form a) (h' : Reads (f a) less form' b)
    (le : bound ≤ less + form.length) : Reads (d >>= f) bound (form ++ form') b where
  whole small fits rest := by
    rw [List.length_append] at small fits
    have first : d (form ++ (form' ++ rest)) = .ok (a, form' ++ rest) := h.whole (by omega) (by omega) _
    have second : f a (form' ++ rest) = .ok (b, rest) := h'.whole (by omega) (by omega) _
    rw [List.append_assoc, bind_of_ok first, second]
  part small front back split some fits := by
    rw [List.length_append] at small
    rcases List.append_eq_append_iff.1 split with ⟨between, rfl, rfl⟩ | ⟨between, rfl, rfl⟩
    · -- The input ends inside the second form.
      rw [List.length_append] at fits
      have first : d (form ++ between) = .ok (a, between) := h.whole (by omega) (by omega) _
      rw [bind_of_ok first]
      exact h'.part (by omega) between back rfl some (by omega)
    · -- The input ends inside the first form, or with it.
      cases between with
      | nil =>
        rw [List.append_nil] at h le small
        have first : d (front ++ []) = .ok (a, []) := h.whole (by omega) fits []
        rw [List.append_nil] at first
        rw [bind_of_ok first]
        exact h'.part (by omega) [] form' rfl some (Nat.zero_le _)
      | cons next between =>
        exact bind_of_error (h.part (by omega) front _ rfl (List.cons_ne_nil _ _) fits)

/-- A form behind another one. -/
theorem bind (h : Reads d bound form a) (h' : Reads (f a) bound form' b) :
    Reads (d >>= f) bound (form ++ form') b :=
  h.behind h' (Nat.le_add_right _ _)

/-- The parts of a node, behind the form of its kind. -/
theorem node (h : Reads d (bound + 1) form a) (some : form ≠ []) (h' : Reads (f a) bound form' b) :
    Reads (d >>= f) (bound + 1) (form ++ form') b := by
  have one : 1 ≤ form.length := List.length_pos_iff.2 some
  exact h.behind h' (by omega)

/-- The last form: nothing is read behind it. -/
theorem last (h : Reads d bound form a) (h' : Reads (f a) bound [] b) : Reads (d >>= f) bound form b := by
  have behind := h.bind h'
  rwa [List.append_nil] at behind

/-- A value that is made of one that is read. -/
theorem map (h : Reads d bound form a) (g : α → β) : Reads (do let x ← d; return g x) bound form (g a) :=
  h.last (.pure bound (g a))

/-- A form of at least one byte is not there where no byte is allowed, and what is there is too short. -/
theorem none (some : form ≠ []) : Reads (fail .unexpectedEnd) 0 form a where
  whole _ fits := absurd (List.length_eq_zero_iff.1 (Nat.le_zero.1 fits)) some
  part _ _ _ _ _ _ := rfl

end Reads

/-- A byte is its own form. -/
theorem byte_reads (bound : Nat) (b : UInt8) : Reads byte bound [b] b where
  whole _ _ _ := rfl
  part _ front back split some _ := by
    rcases List.singleton_eq_append_iff.1 split with ⟨rfl, -⟩ | ⟨-, empty⟩
    · rfl
    · exact absurd empty some

end Decoder

namespace Varint

open Decoder (Reads byte_reads)

variable {bound : Nat}

/-- A number that is a byte by itself, when this byte is allowed at its place. -/
theorem decodeWithin_low {lastByte room n : Nat} (low : n < 128) (allowed : ¬ (room = 0 ∧ lastByte < n)) :
    Reads (decodeWithin lastByte (room + 1)) bound [UInt8.ofNat n] n := by
  have same : (UInt8.ofNat n).toNat = n := UInt8.toNat_ofNat_of_lt' (by show n < 256; omega)
  refine (byte_reads bound (UInt8.ofNat n)).bind ?_
  rw [same, if_pos low, if_neg allowed]
  exact .pure bound n

/-- A number that has room is read back. -/
theorem decodeWithin_reads {lastByte room n : Nat} (byte : lastByte < 128)
    (fits : n < (lastByte + 1) * 128 ^ room) :
    Reads (decodeWithin lastByte (room + 1)) bound (encodeWithin (room + 1) n) n := by
  induction room generalizing n with
  | zero =>
    have low : n < 128 := by omega
    rw [encodeWithin, if_pos low]
    exact decodeWithin_low low (by omega)
  | succ room ih =>
    by_cases low : n < 128
    · rw [encodeWithin, if_pos low]
      exact decodeWithin_low low fun last => Nat.succ_ne_zero room last.1
    · -- The first byte says that others follow, which are the form of what is left of the number.
      have same : (UInt8.ofNat (n % 128 + 128)).toNat = n % 128 + 128 :=
        UInt8.toNat_ofNat_of_lt' (by show n % 128 + 128 < 256; omega)
      have high : n / 128 < (lastByte + 1) * 128 ^ room := by
        rw [Nat.div_lt_iff_lt_mul (by omega), Nat.mul_assoc, ← Nat.pow_succ]
        exact fits
      have value : n % 128 + 128 - 128 + 128 * (n / 128) = n := by omega
      have others := (ih high).map fun high => n % 128 + 128 - 128 + 128 * high
      rw [value] at others
      rw [encodeWithin, if_neg low]
      refine (byte_reads bound (UInt8.ofNat (n % 128 + 128))).bind ?_
      rw [same, if_neg (by omega)]
      exact others

/-- A number of 32 bits. -/
theorem decode_w32 {n : Nat} (fits : n < 2 ^ 32) : Reads (decode .w32) bound (encode .w32 n) n :=
  decodeWithin_reads (by decide) fits

/-- A number of 64 bits. -/
theorem decode_w64 {n : Nat} (fits : n < 2 ^ 64) : Reads (decode .w64) bound (encode .w64 n) n :=
  decodeWithin_reads (by decide) fits

/-- Every number has a form. -/
theorem encode_ne_nil (width : Width) (some : width.bytes ≠ 0) (n : Nat) : encode width n ≠ [] := by
  obtain ⟨room, eq⟩ := Nat.exists_eq_succ_of_ne_zero some
  unfold encode
  rw [eq, encodeWithin]
  split <;> exact List.cons_ne_nil _ _

/-- A signed number is got back from its folding. -/
theorem unfolded_fold (z : Int) : unfolded (fold z) = z := by
  unfold unfolded
  cases z with
  | ofNat n =>
    have even : fold (.ofNat n) = 2 * n := rfl
    rw [even, if_pos (by omega), Nat.mul_div_cancel_left n (by omega)]
  | negSucc n =>
    have odd : fold (.negSucc n) = 2 * n + 1 := rfl
    have half : (2 * n + 1) / 2 = n := by omega
    rw [odd, if_neg (by omega), half]

/-- The folding of a signed number has one bit more than its size. -/
theorem fold_lt {z : Int} {limit : Nat} (above : -(limit : Int) ≤ z) (below : z < limit) :
    fold z < 2 * limit := by
  cases z with
  | ofNat n =>
    show 2 * n < 2 * limit
    have size : (Int.ofNat n : Int) = n := rfl
    omega
  | negSucc n =>
    show 2 * n + 1 < 2 * limit
    omega

end Varint

namespace Decoder

variable {bound : Nat}

/-- A number below `2 ^ 32` is read back. -/
theorem uint32_reads (n : UInt32) : Reads uint32 bound (Wire.uint32 n) n := by
  have reads : Reads uint32 bound (Wire.uint32 n) (UInt32.ofNat n.toNat) :=
    (Varint.decode_w32 n.toNat_lt).map UInt32.ofNat
  rwa [UInt32.ofNat_toNat] at reads

/-- A signed number of 32 bits is read back. -/
theorem int32_reads (n : Int32) : Reads int32 bound (Wire.int32 n) n := by
  have above : -((2 ^ 31 : Nat) : Int) ≤ n.toInt := n.le_toInt
  have fits : Varint.fold n.toInt < 2 ^ 32 := Varint.fold_lt above n.toInt_lt
  have reads : Reads int32 bound (Wire.int32 n)
      (Int32.ofInt (Varint.unfolded (Varint.fold n.toInt))) :=
    (Varint.decode_w32 fits).map fun n => Int32.ofInt (Varint.unfolded n)
  rwa [Varint.unfolded_fold, Int32.ofInt_toInt] at reads

/-- A signed number of 64 bits is read back. -/
theorem int64_reads (n : Int64) : Reads int64 bound (Wire.int64 n) n := by
  have above : -((2 ^ 63 : Nat) : Int) ≤ n.toInt := n.le_toInt
  have fits : Varint.fold n.toInt < 2 ^ 64 := Varint.fold_lt above n.toInt_lt
  have reads : Reads int64 bound (Wire.int64 n)
      (Int64.ofInt (Varint.unfolded (Varint.fold n.toInt))) :=
    (Varint.decode_w64 fits).map fun n => Int64.ofInt (Varint.unfolded n)
  rwa [Varint.unfolded_fold, Int64.ofInt_toInt] at reads

/-- A length is read back. -/
theorem length_reads {n : Nat} (fits : n < 2 ^ 64) : Reads length bound (Wire.length n) n :=
  Varint.decode_w64 fits

/-- The number of a kind is read back. -/
theorem kind_reads {n : Nat} (fits : n < 2 ^ 32) : Reads kind bound (Wire.kind n) n :=
  Varint.decode_w32 fits

/-- Every length has a form. -/
theorem length_ne_nil (n : Nat) : Wire.length n ≠ [] :=
  Varint.encode_ne_nil .w64 (by decide) n

/-- Every kind has a form. -/
theorem kind_ne_nil (n : Nat) : Wire.kind n ≠ [] :=
  Varint.encode_ne_nil .w32 (by decide) n

/-- A number of bytes is read as it is. -/
theorem bytes_reads (content : List UInt8) : Reads (bytes content.length) bound content content where
  whole _ _ rest := by
    have enough : ¬ (content ++ rest).length < content.length := by
      rw [List.length_append]
      omega
    unfold bytes
    rw [if_neg enough, List.take_left, List.drop_left]
  part _ front back split some _ := by
    have short : front.length < content.length := by
      have one : 0 < back.length := List.length_pos_iff.2 some
      rw [split, List.length_append]
      omega
    unfold bytes
    rw [if_pos short]

/-- The UTF-8 form of a text is that of the text. -/
theorem utf8_reads (s : String) : Reads (utf8 s.toByteArray.data.toList) bound [] s := by
  have valid : String.fromUTF8? ⟨s.toByteArray.data.toList.toArray⟩ = some s := by
    unfold String.fromUTF8?
    rw [Array.toArray_toList, dif_pos s.isValidUTF8]
    rfl
  unfold utf8
  rw [valid]
  exact .pure bound s

/-- A text is read back. -/
theorem text_reads (s : String) : Reads text bound (Wire.text s) s := by
  have content : Reads (do let content ← bytes s.utf8ByteSize; utf8 content) bound
      s.toByteArray.data.toList s := (bytes_reads s.toByteArray.data.toList).last (utf8_reads s)
  refine .of_small fun small => ?_
  have fits : s.utf8ByteSize < 2 ^ 64 := by
    have size : s.toByteArray.data.toList.length = s.utf8ByteSize := rfl
    rw [Wire.text, List.length_append, size] at small
    omega
  exact (length_reads fits).bind content

/-- Every text has a form. -/
theorem text_ne_nil (s : String) : Wire.text s ≠ [] :=
  List.append_ne_nil_of_left_ne_nil (length_ne_nil _) _

section Items

variable {α : Type} {item : Decoder α} {form : α → List UInt8}

/-- An optional value is read back. -/
theorem option_reads {value : Option α} (reads : ∀ x ∈ value, Reads item bound (form x) x) :
    Reads (option item) bound (Wire.option form value) value := by
  cases value with
  | none => exact (byte_reads bound 0).bind (.pure bound none)
  | some x =>
    refine (byte_reads bound 1).bind ?_
    exact (reads x rfl).map some

/-- Values are read back one after another. -/
theorem replicate_reads {items : List α} (reads : ∀ x ∈ items, Reads item bound (form x) x) :
    Reads (replicate items.length item) bound (items.flatMap form) items := by
  induction items with
  | nil => exact .pure bound []
  | cons x items ih =>
    obtain ⟨first, others⟩ := List.forall_mem_cons.1 reads
    rw [List.flatMap_cons]
    exact first.bind ((ih others).map (x :: ·))

/-- Items that take at least a byte each are no more than their bytes. -/
theorem length_le_flatMap (some : ∀ x, form x ≠ []) (items : List α) :
    items.length ≤ (items.flatMap form).length := by
  induction items with
  | nil => exact Nat.zero_le _
  | cons x items ih =>
    have one : 0 < (form x).length := List.length_pos_iff.2 (some x)
    rw [List.flatMap_cons, List.length_cons, List.length_append]
    omega

/-- A list is read back, if its items take at least a byte each. -/
theorem list_reads {items : List α} (reads : ∀ x ∈ items, Reads item bound (form x) x)
    (some : ∀ x, form x ≠ []) : Reads (list item) bound (Wire.list form items) items := by
  refine .of_small fun small => ?_
  have fits : items.length < 2 ^ 64 := by
    have each := length_le_flatMap some items
    rw [Wire.list, List.length_append] at small
    omega
  exact (length_reads fits).bind (replicate_reads reads)

end Items

section Enumerations

variable {α : Type} [BEq α] [LawfulBEq α] {all : List α} {value : α}

/-- A value without content is read back by its place among all that there are. -/
theorem enumeration_reads (mem : value ∈ all) (few : all.length ≤ 2 ^ 32) :
    Reads (enumeration all) bound (Wire.enumeration all value) value := by
  have place : all.idxOf value < all.length := List.idxOf_lt_length_iff.2 mem
  have found : all[all.idxOf value]? = some value := by
    rw [List.getElem?_eq_getElem place, List.getElem_idxOf place]
  have kinds : Reads kind bound (Wire.enumeration all value) (all.idxOf value) :=
    kind_reads (Nat.lt_of_lt_of_le place few)
  refine kinds.last ?_
  rw [found]
  exact .pure bound value

end Enumerations

end Decoder

end GridStack
