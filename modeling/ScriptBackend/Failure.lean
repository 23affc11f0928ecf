import ScriptBackend.Diagnostic
import ScriptBackend.Wire.Varint

/-!
# Failures

Everything that ends an operation early, as a cause; `Failure.message` is the
one place where causes are put into words.
-/

namespace ScriptBackend

inductive Fault where
  /-- A loop is closed where none is open. -/
  | noOpenLoop
  | patchOutsideCode (address : UInt32) (codeLength : Nat)
  | trailingBytes (count : Nat)
  | identifierOutsidePool (offset : UInt32)
  | referenceOutsideCode (address : UInt32)
  | variableVanished (name : String)
  | other (message : String)
  deriving DecidableEq, Repr

def Fault.message : Fault → String
  | .noOpenLoop => "loop fixup resolved with no open scope"
  | .patchOutsideCode address codeLength =>
    "patch address " ++ toString address.toNat ++ " outside code of length " ++ toString codeLength
  | .trailingBytes count => toString count ++ " trailing bytes after compiled image"
  | .identifierOutsidePool offset =>
    "identifier offset " ++ toString offset.toNat ++ " outside string pool"
  | .referenceOutsideCode address =>
    "identifier reference at " ++ toString address.toNat ++ " outside code"
  | .variableVanished name => "variable '" ++ name ++ "' vanished after declaration"
  | .other message => message

inductive StorageFault where
  /-- No chunk can hold so many words. -/
  | chunkTooLarge (words : Nat)
  /-- A span does not lie in the storage, or the words do not fill it. -/
  | spanMismatch
  deriving DecidableEq, Repr

def StorageFault.message : StorageFault → String
  | .chunkTooLarge words => "no chunk can hold " ++ toString words ++ " words"
  | .spanMismatch => "words do not fit their span"

inductive Failure where
  /-- A diagnostic, where diagnostics are treated as errors. -/
  | escalated (diagnostic : Diagnostic)
  | encoding (part : String) (cause : Wire.Error)
  | decoding (part : String) (cause : Wire.Error)
  | imageVersion (found expected : UInt32)
  | internal (fault : Fault)
  /-- Nothing more can be done with the code. -/
  | storage (fault : StorageFault)
  deriving DecidableEq, Repr

def Failure.message (f : Failure) : String :=
  "compile error: " ++
    match f with
    | .escalated d => d.text
    | .encoding part cause => "cannot encode " ++ part ++ ": " ++ cause.message
    | .decoding part cause => "cannot decode " ++ part ++ ": " ++ cause.message
    | .imageVersion found expected =>
      "unsupported image version " ++ toString found.toNat ++
        " (expected " ++ toString expected.toNat ++ ")"
    | .internal fault => "internal error: " ++ fault.message
    | .storage fault => fault.message

/-- A computation that may fail and keeps its state when it does. -/
abbrev Fallible (σ : Type) := ExceptT Failure (StateM σ)

end ScriptBackend
