import ScriptBackend.Wire.Codec
import Std.Data.ExtTreeMap

/-!
# Identifier references

Code that is compiled for storage leaves its identifiers open. The table lists,
for each identifier by its offset in the global string pool, the addresses in the
code that wait for it. Identifiers are listed the newest first, the addresses of
one identifier in the order in which they were recorded.
-/

namespace ScriptBackend

open Std (ExtTreeMap)
open Text (Byte)

structure Reference where
  offset : UInt32
  addresses : List UInt32
  deriving DecidableEq, Repr

instance : Wire Reference where
  encode r := Wire.encode r.offset ++ Wire.encode r.addresses
  decode := do
    let offset ← Wire.decode
    let addresses ← Wire.decode
    pure ⟨offset, addresses⟩

structure References where
  /-- Oldest first. -/
  entries : Array Reference
  /-- Position of an entry by its offset. -/
  positions : ExtTreeMap UInt32 Nat

namespace References

def empty : References := ⟨#[], ∅⟩

def size (t : References) : Nat := t.entries.size

def record (t : References) (offset address : UInt32) : References :=
  match t.positions[offset]? with
  | some i =>
    { t with entries := t.entries.modify i fun r => { r with addresses := r.addresses ++ [address] } }
  | none =>
    { entries := t.entries.push ⟨offset, [address]⟩
      positions := t.positions.insert offset t.entries.size }

/-- The table, newest identifier first. -/
def toList (t : References) : List Reference := t.entries.toList.reverse

def encode (t : References) : List Byte := Wire.encode t.toList

end References

end ScriptBackend
