import GridStack.Wire.Decoder

/-!
# Variable-length integers

A number is written in groups of seven bits, the low ones first, one group to a byte; the high bit of a
byte says that another byte follows. A width bounds the number of bytes, and the last byte of the longest
form by the bits that are left for it. Longer forms than necessary are read, never written. Signed numbers
are folded first, so that those near zero of either sign are short.
-/

namespace GridStack

/-- The bounds of a number's written form. -/
structure Width where
  /-- The length of the longest form. -/
  bytes : Nat
  /-- The largest last byte of the longest form. -/
  lastByte : Nat
deriving DecidableEq

namespace Width

/-- Numbers below 2 ^ 32. -/
def w32 : Width := ⟨5, 15⟩

/-- Numbers below 2 ^ 64. -/
def w64 : Width := ⟨10, 1⟩

end Width

namespace Varint

/-- The shortest form of a number, in at most `room` bytes. -/
def encodeWithin : (room : Nat) → Nat → List UInt8
  | 0, _ => []
  | room + 1, n =>
    if n < 128 then [UInt8.ofNat n]
    else UInt8.ofNat (n % 128 + 128) :: encodeWithin room (n / 128)

/-- The shortest form of a number. -/
def encode (width : Width) (n : Nat) : List UInt8 :=
  encodeWithin width.bytes n

/-- Reads a number of at most `room` bytes. -/
def decodeWithin (lastByte : Nat) : (room : Nat) → Decoder Nat
  | 0 => .fail .badVarint
  | room + 1 => do
    let b ← Decoder.byte
    if b.toNat < 128 then
      if room = 0 ∧ lastByte < b.toNat then .fail .badVarint else return b.toNat
    else do
      let high ← decodeWithin lastByte room
      return b.toNat - 128 + 128 * high

/-- Reads a number. -/
def decode (width : Width) : Decoder Nat :=
  decodeWithin width.lastByte width.bytes

/-- Folds a signed number into a natural one: 0, -1, 1, -2, 2 and so on become 0, 1, 2, 3, 4. -/
def fold : Int → Nat
  | .ofNat n => 2 * n
  | .negSucc n => 2 * n + 1

/-- Undoes the folding. -/
def unfolded (n : Nat) : Int :=
  if n % 2 = 0 then .ofNat (n / 2) else .negSucc (n / 2)

end Varint

end GridStack
