import ScriptBackend.Wire.Codec
import Std.Data.ExtTreeMap

/-!
# Float pools

A pool lists numbers bit for bit and names each by its position. A number equal
to one already listed is not listed again; since a NaN equals nothing, every NaN
is listed anew.
-/

namespace ScriptBackend

open Std (ExtTreeMap)
open Text (Byte)

structure FloatPool where
  values : Array Binary64
  /-- Position by `FloatPool.key`. -/
  positions : ExtTreeMap UInt64 UInt32

namespace FloatPool

def empty : FloatPool := ⟨#[], ∅⟩

/-- Equal numbers share a key: one for both zeros, none for a NaN. -/
def key (x : Binary64) : Option UInt64 :=
  if x.isNaN then none else if x.isZero then some 0 else some x.bits

def count (p : FloatPool) : UInt32 := UInt32.ofNat p.values.size

def push (p : FloatPool) (x : Binary64) : FloatPool :=
  { values := p.values.push x
    positions :=
      match key x with
      | some k => p.positions.insert k p.count
      | none => p.positions }

/-- The position of a number, listed at the end unless an equal one is there. -/
def intern (p : FloatPool) (x : Binary64) : UInt32 × FloatPool :=
  match key x >>= (p.positions[·]?) with
  | some i => (i, p)
  | none => (p.count, p.push x)

def get? (p : FloatPool) (i : UInt32) : Option Binary64 := p.values[i.toNat]?

def encode (p : FloatPool) : List Byte := Wire.encode p.values.toList

end FloatPool

end ScriptBackend
