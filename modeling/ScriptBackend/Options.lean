import ScriptBackend.Code.Buffer
import ScriptBackend.Wire.Codec

/-!
# Options

How a unit is compiled: for immediate execution or for storage, how diagnostics
are treated, and how large chunks of code are.
-/

namespace ScriptBackend

inductive Mode where
  /-- Identifiers are written as handles of the host. -/
  | immediate
  /-- Identifiers are left open and listed for a loader. -/
  | deferred
  deriving DecidableEq, Repr

namespace Mode

def text : Mode → String
  | .immediate => "Immediate"
  | .deferred => "Deferred"

def ofName? : String → Option Mode
  | "immediate" => some .immediate
  | "deferred" => some .deferred
  | _ => none

/-- Position on the wire. -/
def index : Mode → UInt32
  | .immediate => 0
  | .deferred => 1

def ofIndex? (i : UInt32) : Option Mode :=
  if i = 0 then some .immediate else if i = 1 then some .deferred else none

instance : Wire Mode where
  encode m := Wire.encode m.index
  decode := do
    match ofIndex? (← Wire.decode) with
    | some m => pure m
    | none => throw .unknownVariant

end Mode

structure Options where
  mode : Mode
  /-- Treat every diagnostic as an error. -/
  strict : Bool
  /-- Least capacity of a chunk of code. -/
  chunkWords : Nat
  deriving DecidableEq, Repr

def Options.default : Options := ⟨.immediate, false, CodeBuffer.defaultChunkWords⟩

end ScriptBackend
