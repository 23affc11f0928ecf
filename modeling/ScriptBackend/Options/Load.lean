import ScriptBackend.Files
import ScriptBackend.Options
import ScriptBackend.Text.Case
import ScriptBackend.Text.Quoted
import ScriptBackend.Toml.Document

/-!
# Where options come from

Options start from the defaults, are overridden by a TOML file if one is named,
and then by environment variables.
-/

namespace ScriptBackend

namespace Toml.Node

def isEmptyContainer : Node → Bool
  | .array elements => elements.isEmpty
  | .tables ts => ts.isEmpty
  | .inline t | .table t => t.entries.isEmpty
  | _ => false

/-- A name written as a string, or as the only key of a table with an empty value. -/
def name? : Node → Option String
  | .string s => some s
  | .inline (.mk _ _ [(key, v)]) | .table (.mk _ _ [(key, v)]) =>
    if v.isEmptyContainer then some key else none
  | _ => none

def boolean? : Node → Option Bool
  | .boolean b => some b
  | _ => none

def natural? : Node → Option Nat
  | .integer n => if 0 ≤ n then some n.toNat else none
  | _ => none

end Toml.Node

namespace Options

def entry? {α : Type} (t : Toml.Table) (key : String) (f : Toml.Node → Option α) (default : α) :
    Option α :=
  match t.get? key with
  | some v => f v
  | none => some default

/-- The options in a TOML table; entries of other names are ignored. -/
def ofTable? (t : Toml.Table) : Option Options := do
  let mode ← entry? t "mode" (fun v => v.name? >>= Mode.ofName?) default.mode
  let strict ← entry? t "warnings_as_errors" (·.boolean?) default.strict
  let chunkWords ← entry? t "chunk_words" (·.natural?) default.chunkWords
  some ⟨mode, strict, chunkWords⟩

def parse? (text : String) : Option Options := Toml.parse text >>= ofTable?

inductive LoadError where
  | unreadable (path : String) (cause : FileError)
  | malformed (path : String)
  | badVariable (name value : String)
  deriving DecidableEq, Repr

def LoadError.message : LoadError → String
  | .unreadable path cause => "cannot read config '" ++ Text.quoted path ++ "': " ++ cause.message
  | .malformed path => "cannot parse config '" ++ Text.quoted path ++ "'"
  | .badVariable name value => "invalid value " ++ Text.quoted value ++ " for " ++ name

abbrev Environment := String → Option String

def modeVariable : String := "CINDER_MODE"

def strictVariable : String := "CINDER_WARNINGS_AS_ERRORS"

def switch? (value : String) : Option Bool :=
  if value ∈ ["1", "true", "yes", "on"] then some true
  else if value ∈ ["0", "false", "no", "off"] then some false
  else none

def fromVariable {α : Type} (env : Environment) (name : String) (f : String → Option α) (default : α) :
    Except LoadError α :=
  match env name with
  | none => .ok default
  | some value =>
    match f (Text.fold value) with
    | some a => .ok a
    | none => .error (.badVariable name value)

def override (o : Options) (env : Environment) : Except LoadError Options := do
  let mode ← fromVariable env modeVariable Mode.ofName? o.mode
  let strict ← fromVariable env strictVariable switch? o.strict
  pure { o with mode, strict }

def readFile {m : Type → Type} [Monad m] (fs : FileSystem m) (path : String) :
    m (Except LoadError Options) := do
  match ← fs.readText path with
  | .error cause => pure (.error (.unreadable path cause))
  | .ok text => pure ((parse? text).elim (.error (.malformed path)) .ok)

/-- The options in a file, if one is named, overridden by the environment. -/
def load {m : Type → Type} [Monad m] (fs : FileSystem m) (env : Environment) (path : Option String) :
    m (Except LoadError Options) := do
  let base ←
    match path with
    | some path => readFile fs path
    | none => pure (.ok default)
  pure (base >>= (·.override env))

end Options

end ScriptBackend
