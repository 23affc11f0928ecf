import ScriptBackend.Reporter
import ScriptBackend.Text.Case
import ScriptBackend.Wire.Codec
import Std.Data.ExtTreeMap

/-!
# Locals of compiled functions

For debuggers and loaders, each compiled function leaves a frame: its name and
its local variables, whose positions are their slots. Functions are told apart by
`namespace::function` without case and listed in the order of that key.
-/

namespace ScriptBackend

open Std (ExtTreeMap)
open Text (Byte)

structure Frame where
  /-- `namespace::function`, as first spelled. -/
  key : String
  /-- Names by slot. -/
  slots : List String
  deriving DecidableEq, Repr

instance : Wire Frame where
  encode f := Wire.encode f.key ++ Wire.encode f.slots
  decode := do
    let key ← Wire.decode
    let slots ← Wire.decode
    pure ⟨key, slots⟩

namespace Frame

def push (f : Frame) (name : String) : Frame := { f with slots := f.slots ++ [name] }

def slot? (f : Frame) (name : String) : Option Nat :=
  f.slots.findIdx? fun s => decide (Text.SameName s name)

end Frame

structure Locals where
  /-- Frames by folded key. -/
  byKey : ExtTreeMap String Frame
  deriving BEq

namespace Locals

def empty : Locals := ⟨∅⟩

def functionKey (namespaceName function : String) : String := namespaceName ++ "::" ++ function

def size (t : Locals) : Nat := t.byKey.size

def record (t : Locals) (function namespaceName name : String) : Locals :=
  let key := functionKey namespaceName function
  let frame := t.byKey[Text.fold key]?.getD ⟨key, []⟩
  ⟨t.byKey.insert (Text.fold key) (frame.push name)⟩

def frames (t : Locals) : List Frame := t.byKey.toList.map (·.2)

/-- A later frame replaces an earlier one of the same key. -/
def ofFrames (frames : List Frame) : Locals :=
  frames.foldl (fun t f => ⟨t.byKey.insert (Text.fold f.key) f⟩) empty

def slot? (t : Locals) (key name : String) : Option Nat := do
  let frame ← t.byKey[Text.fold key]?
  frame.slot? name

/-- The slot of a function's local. A miss is reported, and answered with `none` unless the reporter
is strict and makes a failure of it. -/
def lookup (t : Locals) (namespaceName function name : String) : Fallible Reporter (Option Nat) := do
  let key := functionKey namespaceName function
  let slot := t.slot? key name
  if slot.isNone then Reporter.report (.unresolvedLocal name key)
  pure slot

def encode (t : Locals) : List Byte := Wire.encode t.frames

end Locals

end ScriptBackend
