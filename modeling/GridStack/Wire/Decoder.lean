/-!
# Decoders

A decoder takes a value off the front of a list of bytes and leaves the rest, or says why it cannot. What
is behind a value is not looked at, so values can be read one behind the other.
-/

namespace GridStack

/-- Why bytes are no value. -/
inductive DecodeError
  | unexpectedEnd
  | badVarint
  | badUtf8
  | badOption
  | badVariant
deriving DecidableEq, Inhabited

namespace DecodeError

/-- The text of an error. -/
def message : DecodeError → String
  | unexpectedEnd => "Hit the end of buffer, expected more data"
  | badVarint => "Found a varint that didn't terminate. Is the usize too big for this platform?"
  | badUtf8 => "Tried to parse invalid utf-8"
  | badOption => "Found an Option discriminant that wasn't 0 or 1"
  | badVariant => "Serde Deserialization Error"

end DecodeError

/-- A way to read a value. -/
abbrev Decoder := StateT (List UInt8) (Except DecodeError)

namespace Decoder

/-- Reads nothing and fails. -/
def fail {α : Type} (error : DecodeError) : Decoder α := fun _ =>
  .error error

/-- Reads one byte. -/
def byte : Decoder UInt8
  | [] => .error .unexpectedEnd
  | b :: rest => .ok (b, rest)

/-- Reads a number of bytes. -/
def bytes (count : Nat) : Decoder (List UInt8) := fun input =>
  if input.length < count then .error .unexpectedEnd
  else .ok (input.take count, input.drop count)

/-- Reads one value after another. -/
def replicate {α : Type} (count : Nat) (item : Decoder α) : Decoder (List α) :=
  match count with
  | 0 => pure []
  | n + 1 => do
    let first ← item
    let others ← replicate n item
    return first :: others

/-- Reads a value and forgets what is behind it. -/
def run {α : Type} (decoder : Decoder α) (input : List UInt8) : Except DecodeError α := do
  let (value, _) ← decoder input
  return value

end Decoder

end GridStack
