import ScriptBackend.Failure
import ScriptBackend.Text.Quoted

/-!
# Reporting

The reporter counts diagnostics and hands each to its listener. In strict mode a
diagnostic is then a failure as well; it has been delivered all the same.
-/

namespace ScriptBackend

structure Reporter where
  strict : Bool
  currentFile : Option String
  reported : Nat
  /-- What the listener has been handed, in order. -/
  delivered : Array Diagnostic
  deriving DecidableEq, Repr

namespace Reporter

def new (strict : Bool) : Reporter := ⟨strict, none, 0, #[]⟩

def setStrict (r : Reporter) (strict : Bool) : Reporter := { r with strict }

def setFile (r : Reporter) (file : Option String) : Reporter := { r with currentFile := file }

def location (r : Reporter) (line : UInt32) : Option Location :=
  r.currentFile.map (⟨·, line⟩)

def deliver (r : Reporter) (d : Diagnostic) : Reporter :=
  { r with reported := r.reported + 1, delivered := r.delivered.push d }

def report (d : Diagnostic) : Fallible Reporter Unit := do
  modify (·.deliver d)
  if (← get).strict then throw (.escalated d)

def text (r : Reporter) : String :=
  let file :=
    match r.currentFile with
    | some file => "Some(" ++ Text.quoted file ++ ")"
    | none => "None"
  "Diagnostics \x7b warnings_as_errors: " ++ toString r.strict ++ ", current_file: " ++ file ++
    ", reported: " ++ toString r.reported ++ " \x7d"

end Reporter

end ScriptBackend
