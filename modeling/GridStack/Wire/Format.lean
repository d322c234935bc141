import GridStack.Wire.Varint

/-!
# The building blocks of the wire format

Numbers are varints; a text is its length in bytes and its UTF-8 form; an optional value is a byte 0, or a
byte 1 and the value; a list is its length and its items; a value of several kinds begins with the number
of its kind.
-/

namespace GridStack

namespace Wire

/-- The form of a number below 2 ^ 32. -/
def uint32 (n : UInt32) : List UInt8 :=
  Varint.encode .w32 n.toNat

/-- The form of a signed number of 32 bits. -/
def int32 (n : Int32) : List UInt8 :=
  Varint.encode .w32 (Varint.fold n.toInt)

/-- The form of a signed number of 64 bits. -/
def int64 (n : Int64) : List UInt8 :=
  Varint.encode .w64 (Varint.fold n.toInt)

/-- The form of a length. -/
def length (n : Nat) : List UInt8 :=
  Varint.encode .w64 n

/-- The form of the number of a kind. -/
def kind (n : Nat) : List UInt8 :=
  Varint.encode .w32 n

/-- The form of a text. -/
def text (s : String) : List UInt8 :=
  length s.utf8ByteSize ++ s.toByteArray.data.toList

/-- The form of an optional value. -/
def option {α : Type} (item : α → List UInt8) : Option α → List UInt8
  | none => [0]
  | some value => 1 :: item value

/-- The form of a list. -/
def list {α : Type} (item : α → List UInt8) (items : List α) : List UInt8 :=
  length items.length ++ items.flatMap item

/-- The form of a value without content, by its place among all that there are. -/
def enumeration {α : Type} [BEq α] (all : List α) (value : α) : List UInt8 :=
  kind (all.idxOf value)

end Wire

namespace Decoder

/-- Reads a number below 2 ^ 32. -/
def uint32 : Decoder UInt32 := do
  let n ← Varint.decode .w32
  return UInt32.ofNat n

/-- Reads a signed number of 32 bits. -/
def int32 : Decoder Int32 := do
  let n ← Varint.decode .w32
  return Int32.ofInt (Varint.unfolded n)

/-- Reads a signed number of 64 bits. -/
def int64 : Decoder Int64 := do
  let n ← Varint.decode .w64
  return Int64.ofInt (Varint.unfolded n)

/-- Reads a length. -/
def length : Decoder Nat :=
  Varint.decode .w64

/-- Reads the number of a kind. -/
def kind : Decoder Nat :=
  Varint.decode .w32

/-- The text of a UTF-8 form. -/
def utf8 (content : List UInt8) : Decoder String :=
  match String.fromUTF8? ⟨content.toArray⟩ with
  | some s => pure s
  | none => .fail .badUtf8

/-- Reads a text. That all its bytes are there is found out before they are looked at. -/
def text : Decoder String := do
  let count ← length
  let content ← bytes count
  utf8 content

/-- Reads an optional value. -/
def option {α : Type} (item : Decoder α) : Decoder (Option α) := do
  let b ← byte
  if b = 0 then
    return none
  else if b = 1 then do
    let value ← item
    return some value
  else
    .fail .badOption

/-- Reads a list. -/
def list {α : Type} (item : Decoder α) : Decoder (List α) := do
  let count ← length
  replicate count item

/-- Reads a value without content, by its place among all that there are. -/
def enumeration {α : Type} (all : List α) : Decoder α := do
  let n ← kind
  match all[n]? with
  | some value => pure value
  | none => .fail .badVariant

end Decoder

end GridStack
