/-!
# Diagnostics

A diagnostic says what is doubtful about a script and, where a source file is
known, at which line.
-/

namespace ScriptBackend

inductive Severity where
  | warning
  | error
  deriving DecidableEq, Repr

structure Location where
  file : String
  line : UInt32
  deriving DecidableEq, Repr

def Location.text (l : Location) : String := l.file ++ " (" ++ toString l.line.toNat ++ ")"

namespace Diagnostic

inductive Kind where
  /-- A literal used as a number is zero and names no truth value. -/
  | alwaysZeroLiteral
  | constantReassignment
  /-- A variable is read before it is assigned. -/
  | undeclaredVariableUse
  /-- A function has no local variable of that name. -/
  | unresolvedLocalVariable
  deriving DecidableEq, Repr

def Kind.severity : Kind → Severity
  | .unresolvedLocalVariable => .error
  | _ => .warning

end Diagnostic

structure Diagnostic where
  kind : Diagnostic.Kind
  message : String
  location : Option Location
  deriving DecidableEq, Repr

namespace Diagnostic

def severity (d : Diagnostic) : Severity := d.kind.severity

def text (d : Diagnostic) : String :=
  match d.location with
  | some l => l.text ++ ": " ++ d.message
  | none => d.message

def alwaysZero (location : Location) : Diagnostic :=
  ⟨.alwaysZeroLiteral, "string always evaluates to 0.", some location⟩

def reassigned (name : String) (location : Option Location) : Diagnostic :=
  ⟨.constantReassignment, "Reassigning variable " ++ name ++ " when it is a constant.", location⟩

def undeclared (name : String) (location : Option Location) : Diagnostic :=
  ⟨.undeclaredVariableUse,
    "Variable " ++ name ++ " referenced before used when compiling script.", location⟩

/-- Tables of locals outlive their source, so no location is known. -/
def unresolvedLocal (name function : String) : Diagnostic :=
  ⟨.unresolvedLocalVariable,
    "Unable to find local variable " ++ name ++ " in function name " ++ function, none⟩

end Diagnostic

end ScriptBackend
