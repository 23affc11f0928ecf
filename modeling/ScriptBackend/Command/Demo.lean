import ScriptBackend.Session

/-!
# The built-in script

A small function, compiled by hand: it counts a variable up to a literal and calls
`echo` with it. It exercises variables, literals, loops, identifiers and locals.
-/

namespace ScriptBackend.Command.Demo

/-! Opcodes, for show: the machine that runs code owns the real ones. -/

def loadUnsigned : Word := 0x10
def loadFloat : Word := 0x11
def storeLocal : Word := 0x12
def compareLess : Word := 0x20
def jumpIfNot : Word := 0x30
def jump : Word := 0x31
def call : Word := 0x40
def incrementLocal : Word := 0x50
def leave : Word := 0x60

def address : Fallible Session UInt32 := return (← get).code.position

def emit (words : List Word) : Fallible Session UInt32 :=
  Session.appending words.length fun s =>
    let (address, code) := s.code.emitWords words
    (.ok address, { s with code })

def perform (op : Session.Op) : Fallible Session Unit := do
  let _ ← Session.perform op

/-- `function Demo::main() { for (%i = 0; %i < "3"; %i++) echo(%i); }` -/
def compile : Fallible Session Unit := do
  perform (.openUnit (some "<demo>"))
  perform .enterFunction
  let i ← Session.onVars (Scope.assign "%i" .unsigned false 1)
  let bound ← Session.literal "3" (some 1)
  let limit ← modifyGet (·.internFloat bound)
  perform (.code (.breakLine 1 (← address)))
  let _ ← emit [loadUnsigned, 0, storeLocal, i]
  perform (.code .openLoop)
  let start ← address
  let _ ← emit [loadFloat, limit, compareLess, i, jumpIfNot]
  perform (.code (.emitFixup .exit))
  let callAddress ← emit [call]
  perform (.code (.breakLine 2 callAddress))
  perform (.emitIdentifier (some ⟨"echo", 0xEC40⟩))
  let register ← Session.onVars (Scope.lookup "%i" 2)
  let _ ← emit [register]
  let next ← emit [incrementLocal, i]
  let _ ← emit [jump]
  perform (.code (.emitFixup .start))
  perform (.code (.closeLoop ⟨start, ← address, next⟩))
  let _ ← emit [leave]
  perform (.leaveFunction "Demo" "main")

end ScriptBackend.Command.Demo
