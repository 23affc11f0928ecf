import ScriptBackend.Binary64.Basic
import ScriptBackend.Wire.Varint

/-!
# The wire format

Words are varints, texts and sequences carry their length in front, numbers are
eight bytes, least significant first, and a structure is its fields in order. A
type with a form on the wire is an instance of `Wire`.
-/

namespace ScriptBackend

open Text (Byte)

class Wire (α : Type) where
  encode : α → List Byte
  decode : Wire.Reader α

namespace Wire

def readByte : Reader Byte
  | [] => .error .unexpectedEnd
  | b :: rest => .ok (b, rest)

/-- The next `n` bytes together: none is taken if there are fewer. -/
def readBytes (n : Nat) : Reader (List Byte) := fun bs =>
  if bs.length < n then .error .unexpectedEnd else .ok (bs.splitAt n)

def readMany {α : Type} (read : Reader α) : Nat → Reader (List α)
  | 0 => pure []
  | n + 1 => do
    let first ← read
    let rest ← readMany read n
    pure (first :: rest)

instance : Wire Byte where
  encode b := [b]
  decode := readByte

instance : Wire UInt32 where
  encode w := encodeVarint w.toNat
  decode := readWord

instance : Wire String where
  encode s := encodeVarint (Text.size s) ++ Text.bytes s
  decode := do
    let n ← readLength
    let bs ← readBytes n
    match Text.ofBytes? bs with
    | some s => pure s
    | none => throw .badText

def littleEndian : (count : Nat) → Nat → List Byte
  | 0, _ => []
  | count + 1, n => UInt8.ofNat n :: littleEndian count (n / 256)

def ofLittleEndian : List Byte → Nat
  | [] => 0
  | b :: rest => b.toNat + 256 * ofLittleEndian rest

instance : Wire Binary64 where
  encode x := littleEndian 8 x.bits.toNat
  decode := do
    let bs ← readBytes 8
    pure ⟨UInt64.ofNat (ofLittleEndian bs)⟩

instance {α : Type} [Wire α] : Wire (List α) where
  encode xs := encodeVarint xs.length ++ xs.flatMap encode
  decode := do
    let n ← readLength
    readMany decode n

end Wire

end ScriptBackend
