import ScriptBackend.FloatPool
import ScriptBackend.Image
import ScriptBackend.Literal
import ScriptBackend.Scope
import ScriptBackend.StringPool

/-!
# Compilation sessions

A session holds all that compiling a unit touches: two pairs of constant pools,
three scopes of variables, references, locals, code and the reporter. Literals and
variables go to the pools and the scope of the region being compiled.

`Session.Op` lists what a compiler can do to a session and `Session.perform` does
it; `image` and `write` take the image out without changing anything.
-/

namespace ScriptBackend

open Text (Byte)

structure Pools where
  strings : StringPool
  floats : FloatPool

def Pools.empty : Pools := ⟨.empty, .empty⟩

inductive Region where
  | global
  | function
  deriving DecidableEq, Repr

structure Identifier where
  name : String
  handle : UInt64
  deriving DecidableEq, Repr

structure Session where
  options : Options
  reporter : Reporter
  region : Region
  globalPools : Pools
  functionPools : Pools
  references : References
  locals : Locals
  /-- Top level of a unit compiled for storage. -/
  unitVars : Scope
  /-- Top level of immediate code, which outlives units. -/
  evalVars : Scope
  functionVars : Scope
  code : CodeBuffer

namespace Session

def new (options : Options) : Session where
  options := options
  reporter := .new options.strict
  region := .global
  globalPools := .empty
  functionPools := .empty
  references := .empty
  locals := .empty
  unitVars := .empty
  evalVars := .empty
  functionVars := .empty
  code := .new options.chunkWords

def mode (s : Session) : Mode := s.options.mode

def pools (s : Session) : Pools :=
  match s.region with
  | .global => s.globalPools
  | .function => s.functionPools

def setPools (s : Session) (p : Pools) : Session :=
  match s.region with
  | .global => { s with globalPools := p }
  | .function => { s with functionPools := p }

def vars (s : Session) : Scope :=
  match s.region, s.mode with
  | .function, _ => s.functionVars
  | .global, .immediate => s.evalVars
  | .global, .deferred => s.unitVars

def setVars (s : Session) (v : Scope) : Session :=
  match s.region, s.mode with
  | .function, _ => { s with functionVars := v }
  | .global, .immediate => { s with evalVars := v }
  | .global, .deferred => { s with unitVars := v }

/-- A new mode empties both top-level scopes, whose registers it does not share. -/
def setMode (s : Session) (mode : Mode) : Session :=
  if mode = s.mode then s
  else { s with options := { s.options with mode }, unitVars := .empty, evalVars := .empty }

def setStrict (s : Session) (strict : Bool) : Session :=
  { s with options := { s.options with strict }, reporter := s.reporter.setStrict strict }

def setFile (s : Session) (file : Option String) : Session :=
  { s with reporter := s.reporter.setFile file }

/-- Empty the tables and go back to the global region. The scope of immediate code stays. -/
def clearTables (s : Session) : Session :=
  { s with
    region := .global, globalPools := .empty, functionPools := .empty, references := .empty
    locals := .empty, unitVars := .empty, functionVars := .empty }

def openUnit (s : Session) (file : Option String) : Session :=
  let s := (s.setFile file).clearTables
  { s with code := s.code.reset }

def enterFunction (s : Session) : Session :=
  { s with region := .function, functionVars := .empty }

def recordLocals (s : Session) (namespaceName function : String) : Session :=
  { s with locals :=
      s.vars.toList.foldl (fun t v => t.record function namespaceName v.name) s.locals }

def leaveFunction (s : Session) (namespaceName function : String) : Session :=
  { s.recordLocals namespaceName function with functionVars := .empty, region := .global }

def onStrings (f : StringPool → UInt32 × StringPool) (s : Session) : UInt32 × Session :=
  let (offset, strings) := f s.pools.strings
  (offset, s.setPools { s.pools with strings })

def internString (s : Session) (text : String) (caseSensitive tagged : Bool) : UInt32 × Session :=
  s.onStrings (·.intern text caseSensitive tagged)

def internFloat (s : Session) (x : Binary64) : UInt32 × Session :=
  let (index, floats) := s.pools.floats.intern x
  (index, s.setPools { s.pools with floats })

def internGlobal (s : Session) (name : String) (caseSensitive : Bool) : UInt32 × Session :=
  let (offset, strings) := s.globalPools.strings.intern name caseSensitive false
  (offset, { s with globalPools := { s.globalPools with strings } })

def internName (s : Session) (name : Option String) : Session :=
  match name with
  | some name => (s.internGlobal name true).2
  | none => s

/-- Append the two words of an identifier and give their address. Immediate code holds
the handle, low word first; deferred code holds zeros and the address is noted. -/
def emitIdentifier (s : Session) (identifier : Option Identifier) : UInt32 × Session :=
  let emitWords (s : Session) (ws : List Word) : UInt32 × Session :=
    let (address, code) := s.code.emitWords ws
    (address, { s with code })
  match s.mode, identifier with
  | _, none => emitWords s [0, 0]
  | .immediate, some i => emitWords s [i.handle.toUInt32, (i.handle >>> 32).toUInt32]
  | .deferred, some i =>
    let (offset, s) := s.internGlobal i.name false
    emitWords { s with references := s.references.record offset s.code.position } [0, 0]

def appending {α : Type} (size : Nat) (x : Fallible Session α) : Fallible Session α := fun s =>
  match s.code.checkRoom size with
  | .error e => (.error e, s)
  | .ok () => x s

def onVars {α : Type} (x : Scope.Action α) : Fallible Session α := fun s =>
  let (result, vars, reporter) := x.run (s.vars, s.reporter)
  (result, { s.setVars vars with reporter })

def onReporter {α : Type} (x : Fallible Reporter α) : Fallible Session α := fun s =>
  let (result, reporter) := x.run s.reporter
  (result, { s with reporter })

def lookupLocal (namespaceName function name : String) : Fallible Session (Option Nat) := do
  onReporter ((← get).locals.lookup namespaceName function name)

def literal (text : String) (line : Option UInt32) : Fallible Session Binary64 := do
  let location := line.bind (← get).reporter.location
  onReporter (Literal.toNumber text location)

inductive Op where
  | openUnit (file : Option String)
  | clearTables
  | enterFunction
  | leaveFunction (namespaceName function : String)
  | recordLocals (namespaceName function : String)
  | setMode (mode : Mode)
  | setStrict (strict : Bool)
  | setFile (file : Option String)
  | internString (text : String) (caseSensitive tagged : Bool)
  | internIntText (n : Int)
  | internFloatText (x : Binary64)
  | internFloat (x : Binary64)
  | internName (name : Option String)
  | emitIdentifier (identifier : Option Identifier)
  | assign (name : String) (kind : ValueKind) (isConstant : Bool) (line : UInt32)
  | lookup (name : String) (line : UInt32)
  | lookupKind (name : String) (line : UInt32)
  | lookupLocal (namespaceName function name : String)
  | literal (text : String) (line : Option UInt32)
  | code (op : CodeBuffer.Op)
  deriving DecidableEq, Repr

inductive Answer where
  | done
  /-- An offset, an index, a register or an address. -/
  | word (w : UInt32)
  | kind (k : ValueKind)
  | slot (slot : Option Nat)
  | number (x : Binary64)
  | code (answer : CodeBuffer.Answer)
  deriving DecidableEq, Repr

def change (f : Session → Session) : Fallible Session Answer := do
  modify f
  pure .done

def answerWord (f : Session → UInt32 × Session) : Fallible Session Answer := fun s =>
  let (w, s) := f s
  (.ok (.word w), s)

def onCode (op : CodeBuffer.Op) : Fallible Session Answer := fun s =>
  let (result, code) := s.code.apply op
  (result.map .code, { s with code })

def perform : Op → Fallible Session Answer
  | .openUnit file => change (·.openUnit file)
  | .clearTables => change clearTables
  | .enterFunction => change enterFunction
  | .leaveFunction namespaceName function => change (·.leaveFunction namespaceName function)
  | .recordLocals namespaceName function => change (·.recordLocals namespaceName function)
  | .setMode mode => change (·.setMode mode)
  | .setStrict strict => change (·.setStrict strict)
  | .setFile file => change (·.setFile file)
  | .internString text caseSensitive tagged => answerWord (·.internString text caseSensitive tagged)
  | .internIntText n => answerWord (onStrings (·.internInt n))
  | .internFloatText x => answerWord (onStrings (·.internFloat x))
  | .internFloat x => answerWord (·.internFloat x)
  | .internName name => change (·.internName name)
  | .emitIdentifier identifier => appending 2 (answerWord (·.emitIdentifier identifier))
  | .assign name kind isConstant line => .word <$> onVars (Scope.assign name kind isConstant line)
  | .lookup name line => .word <$> onVars (Scope.lookup name line)
  | .lookupKind name line => .kind <$> onVars (Scope.lookupKind name line)
  | .lookupLocal namespaceName function name => .slot <$> lookupLocal namespaceName function name
  | .literal text line => .number <$> literal text line
  | .code op => onCode op

/-- The references as an image lists them: none in immediate mode. -/
def openReferences (s : Session) : List Reference :=
  match s.mode with
  | .immediate => []
  | .deferred => s.references.toList

def image (s : Session) : Except Failure Image := do
  let code ← s.code.flatten
  pure {
    mode := s.mode
    globalStrings := s.globalPools.strings.bytes
    functionStrings := s.functionPools.strings.bytes
    globalFloats := s.globalPools.floats.values.toList
    functionFloats := s.functionPools.floats.values.toList
    references := s.openReferences
    locals := s.locals
    code }

def encodeTables (s : Session) : List Byte :=
  Wire.encode (⟨Image.version, s.mode⟩ : Image.Header) ++
    s.globalPools.strings.encode ++ s.functionPools.strings.encode ++
    s.globalPools.floats.encode ++ s.functionPools.floats.encode ++
    (match s.mode with
      | .immediate => []
      | .deferred => s.references.encode) ++
    s.locals.encode

/-- Append the unit to some bytes. If the code cannot be flattened, the parts before it have
been appended already. -/
def write (s : Session) (sink : List Byte) : Except Failure Unit × List Byte :=
  let sink := sink ++ s.encodeTables
  match s.code.flatten with
  | .error e => (.error e, sink)
  | .ok flat => (.ok (), Image.writePart flat.lineBreaks (Image.writePart flat.code sink))

end Session

end ScriptBackend
