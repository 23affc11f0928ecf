import ScriptBackend.Text.Utf8

/-!
# Variable-length naturals

Seven bits to a byte, the low ones first; a byte from 128 up says that another
one follows. A reader states how many bytes it accepts and how large the last
of them may be, which bounds the number read. Forms longer than needed, such as
`80 00` for zero, are accepted.
-/

namespace ScriptBackend.Wire

open Text (Byte)

inductive Error where
  | unexpectedEnd
  | badVarint
  | badText
  | unknownVariant
  | bufferFull
  deriving DecidableEq, Repr

def Error.message : Error → String
  | .unexpectedEnd => "Hit the end of buffer, expected more data"
  | .badVarint => "Found a varint that didn't terminate. Is the usize too big for this platform?"
  | .badText => "Tried to parse invalid utf-8"
  | .unknownVariant => "Serde Deserialization Error"
  | .bufferFull => "The serialize buffer is full"

/-- A reader takes what it needs from the front of the bytes and leaves the rest. -/
abbrev Reader := StateT (List Byte) (Except Error)

def encodeVarint (n : Nat) : List Byte :=
  if n < 128 then [UInt8.ofNat n]
  else UInt8.ofNat (n % 128 + 128) :: encodeVarint (n / 128)

/-- A natural of at most `groups` bytes, the last possible one at most `last`. -/
def decodeVarint (last : Byte) : (groups : Nat) → List Byte → Except Error (Nat × List Byte)
  | 0, _ => .error .badVarint
  | _ + 1, [] => .error .unexpectedEnd
  | groups + 1, b :: rest =>
    if b < 128 then
      if groups = 0 ∧ last < b then .error .badVarint else .ok (b.toNat, rest)
    else do
      let (high, rest) ← decodeVarint last groups rest
      .ok (b.toNat - 128 + 128 * high, rest)

/-- Thirty-two bits need five groups, the last of four bits. -/
def readWord : Reader UInt32 := fun bs => do
  let (n, rest) ← decodeVarint 0x0F 5 bs
  .ok (UInt32.ofNat n, rest)

def readLength : Reader Nat := decodeVarint 0x01 10

end ScriptBackend.Wire
