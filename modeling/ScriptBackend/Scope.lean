import ScriptBackend.Reporter
import ScriptBackend.Text.Case
import Std.Data.ExtTreeMap

/-!
# Variables of a scope

A scope binds names to registers, handed out from zero in the order of first
reference. Names are compared without case. Each variable has a static kind that
is lost as soon as two uses disagree.
-/

namespace ScriptBackend

open Std (ExtTreeMap)

/-- What is known statically about a variable's values. -/
inductive ValueKind where
  /-- Uses disagree. -/
  | unconstrained
  | unsigned
  | float
  | string
  deriving DecidableEq, Repr

def ValueKind.join (known used : ValueKind) : ValueKind :=
  if used = known then known else .unconstrained

structure Variable where
  register : UInt32
  kind : ValueKind
  /-- The spelling of the first reference. -/
  name : String
  isConstant : Bool
  deriving DecidableEq, Repr

structure Scope where
  /-- Variables by folded name. -/
  byName : ExtTreeMap String Variable
  /-- Folded names by register. -/
  order : Array String

namespace Scope

def empty : Scope := ⟨∅, #[]⟩

def count (s : Scope) : UInt32 := UInt32.ofNat s.order.size

def get? (s : Scope) (name : String) : Option Variable := s.byName[Text.fold name]?

def atRegister? (s : Scope) (register : UInt32) : Option Variable :=
  s.order[register.toNat]? >>= (s.byName[·]?)

def toList (s : Scope) : List Variable := s.order.toList.filterMap (s.byName[·]?)

def declare (s : Scope) (name : String) (kind : ValueKind) (isConstant : Bool) : Scope :=
  { byName := s.byName.insert (Text.fold name) ⟨s.count, kind, name, isConstant⟩
    order := s.order.push (Text.fold name) }

def use (s : Scope) (name : String) (v : Variable) (kind : ValueKind) : Scope :=
  { s with byName := s.byName.insert (Text.fold name) { v with kind := v.kind.join kind } }

abbrev Action := Fallible (Scope × Reporter)

def modifyScope (f : Scope → Scope) : Action Unit := modify fun (s, r) => (f s, r)

def reportAt (line : UInt32) (d : Option Location → Diagnostic) : Action Unit := fun (s, r) =>
  let (result, r) := (Reporter.report (d (r.location line))).run r
  (result, s, r)

/-- The register of a variable that is assigned. A constant that is assigned again is
reported, after its kind has been joined. -/
def assign (name : String) (kind : ValueKind) (isConstant : Bool) (line : UInt32) :
    Action UInt32 := do
  let (s, _) ← get
  match s.get? name with
  | some v =>
    modifyScope (·.use name v kind)
    if v.isConstant then reportAt line (.reassigned name)
    pure v.register
  | none =>
    modifyScope (·.declare name kind isConstant)
    pure s.count

/-- The variable of a name that is read. A name never seen is reported and declared
as a string. -/
def resolve (name : String) (line : UInt32) : Action Variable := do
  let (s, _) ← get
  if (s.get? name).isNone then
    reportAt line (.undeclared name)
    let _ ← assign name .string false line
  let (s, _) ← get
  match s.get? name with
  | some v => pure v
  | none => throw (.internal (.variableVanished name))

def lookup (name : String) (line : UInt32) : Action UInt32 := return (← resolve name line).register

def lookupKind (name : String) (line : UInt32) : Action ValueKind := return (← resolve name line).kind

end Scope

end ScriptBackend
