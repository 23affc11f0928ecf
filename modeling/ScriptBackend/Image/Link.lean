import ScriptBackend.Image

/-!
# Linking

A loader closes the references of a deferred image: it asks the host for the
handle of each identifier and stores it at every address that waits for it, the
low word first. Everything is checked before anything is stored, so a failure
leaves the image as it was.
-/

namespace ScriptBackend

/-- How the host hands out handles for names; it may remember what it was asked. -/
abbrev Interner (σ : Type) := String → StateM σ UInt64

namespace FlatCode

/-- A handle stored at an address and the one after it. Outside the code nothing is stored. -/
def storeHandle (f : FlatCode) (address : UInt32) (handle : UInt64) : FlatCode :=
  let low := (f.set? address.toNat handle.toUInt32).getD f
  (low.set? (address.toNat + 1) (handle >>> 32).toUInt32).getD low

end FlatCode

namespace Image

/-- The name of a reference that can be linked: its name is in the pool and each of its
addresses has room for a handle. -/
def linkable (i : Image) (r : Reference) : Except Failure String :=
  match i.globalText? r.offset with
  | none => .error (.internal (.identifierOutsidePool r.offset))
  | some name =>
    match r.addresses.find? fun a => decide (i.code.codeLength < a.toNat + 2) with
    | some address => .error (.internal (.referenceOutsideCode address))
    | none => .ok name

def handles {σ : Type} (i : Image) (intern : Interner σ) :
    List Reference → ExceptT Failure (StateM σ) (List UInt64)
  | [] => pure []
  | r :: rest => do
    let name ← i.linkable r
    let handle ← intern name
    let others ← handles i intern rest
    pure (handle :: others)

def closeReference (code : FlatCode) (r : Reference) (handle : UInt64) : FlatCode :=
  r.addresses.foldl (fun code address => code.storeHandle address handle) code

/-- Close all references. The image after a failure is the image before. -/
def link {σ : Type} (intern : Interner σ) (i : Image) : StateM σ (Except Failure Unit × Image) := do
  match i.mode with
  | .immediate => pure (.ok (), i)
  | .deferred =>
    match ← (i.handles intern i.references).run with
    | .error e => pure (.error e, i)
    | .ok handles =>
      let code := (i.references.zip handles).foldl (fun code (r, h) => closeReference code r h) i.code
      pure (.ok (), { i with mode := .immediate, references := [], code })

end Image

end ScriptBackend
