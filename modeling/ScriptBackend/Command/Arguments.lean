/-!
# Command-line arguments

Options are read for the tool and then for its command. An option may be given
once at each of the two; options of the tool may also be given after the command,
and then count before those in front of it. Asking for the version or for help
ends the reading, even if something wrong would follow.
-/

namespace ScriptBackend.Command

inductive Action where
  | dump (file : String)
  /-- Compile the built-in script and list it, or write it to a file. -/
  | demo (deferred strict : Bool) (output : Option String)
  deriving DecidableEq, Repr

structure Invocation where
  verbose : Bool
  config : Option String
  action : Action
  deriving DecidableEq, Repr

inductive Request where
  | version
  | help
  | run (i : Invocation)
  deriving DecidableEq, Repr

inductive Stop where
  | version
  | help
  | misuse
  deriving DecidableEq, Repr

inductive Level where
  | tool
  | dump
  | demo
  deriving DecidableEq, Repr

inductive Switch where
  | verbose
  | config
  | deferred
  | strict
  | output
  | version
  | help
  deriving DecidableEq, Repr

def Switch.takesValue : Switch → Bool
  | .config | .output => true
  | _ => false

def Level.longSwitch? : Level → String → Option Switch
  | _, "verbose" => some .verbose
  | _, "config" => some .config
  | _, "help" => some .help
  | .tool, "version" => some .version
  | .demo, "deferred" => some .deferred
  | .demo, "warnings-as-errors" => some .strict
  | .demo, "output" => some .output
  | _, _ => none

def Level.shortSwitch? : Level → Char → Option Switch
  | _, 'v' => some .verbose
  | _, 'h' => some .help
  | .tool, 'V' => some .version
  | .demo, 'o' => some .output
  | _, _ => none

structure Given where
  switches : List (Switch × String)
  positionals : List String
  deriving DecidableEq, Repr

namespace Given

def none : Given := ⟨[], []⟩

def has (g : Given) (s : Switch) : Bool := g.switches.any (·.1 = s)

def value? (g : Given) (s : Switch) : Option String := g.switches.lookup s

/-- Give a switch. Version and help answer at once, a second time is misuse, and so is an
empty value. -/
def give (g : Given) (s : Switch) (value : Option String) : Except Stop Given :=
  match s with
  | .version => .error .version
  | .help => .error .help
  | s =>
    if g.has s || value = some "" then .error .misuse
    else .ok { g with switches := (s, value.getD "") :: g.switches }

end Given

def isSwitchLike (token : String) : Bool := token.startsWith "-" && token ≠ "-"

def nextValue : List String → Except Stop (String × List String)
  | [] => .error .misuse
  | token :: rest => if isSwitchLike token then .error .misuse else .ok (token, rest)

def readLong (level : Level) (g : Given) (body : String) (rest : List String) :
    Except Stop (Given × List String) :=
  let name := String.ofList (body.toList.takeWhile (· ≠ '='))
  let attached := (body.toList.dropWhile (· ≠ '=')).tail?.map String.ofList
  match level.longSwitch? name with
  | none => .error .misuse
  | some s => do
    match s.takesValue, attached with
    | true, some value => pure (← g.give s value, rest)
    | true, none =>
      let (value, rest) ← nextValue rest
      pure (← g.give s value, rest)
    | false, none => pure (← g.give s none, rest)
    | false, some _ => .error .misuse

def readShort (level : Level) : Given → List Char → List String → Except Stop (Given × List String)
  | g, [], rest => .ok (g, rest)
  | g, c :: more, rest =>
    match level.shortSwitch? c with
    | none => .error .misuse
    | some s =>
      if s.takesValue then
        match more with
        | [] => do
          let (value, rest) ← nextValue rest
          pure (← g.give s value, rest)
        | '=' :: value => do pure (← g.give s (String.ofList value), rest)
        | value => do pure (← g.give s (String.ofList value), rest)
      else do readShort level (← g.give s none) more rest

def readSwitch (level : Level) (g : Given) (token : String) (rest : List String) :
    Except Stop (Given × List String) :=
  match token.toList with
  | '-' :: '-' :: body => readLong level g (String.ofList body) rest
  | _ :: body => readShort level g body rest
  | [] => .error .misuse

def Level.maxPositionals : Level → Nat
  | .dump => 1
  | _ => 0

def addPositional (level : Level) (g : Given) (token : String) : Except Stop Given :=
  if token.isEmpty || level.maxPositionals ≤ g.positionals.length then .error .misuse
  else .ok { g with positionals := g.positionals ++ [token] }

/-- The arguments of a command. After `--` every token is a value. -/
def readCommand (level : Level) (g : Given) : (fuel : Nat) → List String → Except Stop Given
  | 0, _ => .ok g
  | _ + 1, [] => .ok g
  | fuel + 1, token :: rest =>
    if token = "--" then rest.foldlM (addPositional level) g
    else if isSwitchLike token then do
      let (g, rest) ← readSwitch level g token rest
      readCommand level g fuel rest
    else do readCommand level (← addPositional level g token) fuel rest

/-- A command's arguments, which may also hold options of the tool. -/
def readLevel (level : Level) (tokens : List String) : Except Stop Given :=
  readCommand level .none tokens.length tokens

def readHelp : List String → Stop
  | [] => .help
  | [command] => if command ∈ ["dump", "demo", "help"] then .help else .misuse
  | _ => .misuse

def invocation (tool command : Given) (action : Action) : Invocation where
  verbose := tool.has .verbose || command.has .verbose
  config := (command.value? .config).or (tool.value? .config)
  action := action

def readTool (g : Given) : (fuel : Nat) → List String → Except Stop Invocation
  | 0, _ => .error .misuse
  | _ + 1, [] => .error .misuse
  | fuel + 1, token :: rest =>
    if token = "--" then .error .misuse
    else if isSwitchLike token then do
      let (g, rest) ← readSwitch .tool g token rest
      readTool g fuel rest
    else
      match token with
      | "dump" => do
        let command ← readLevel .dump rest
        match command.positionals with
        | [file] => pure (invocation g command (.dump file))
        | _ => .error .misuse
      | "demo" => do
        let command ← readLevel .demo rest
        pure (invocation g command
          (.demo (command.has .deferred) (command.has .strict) (command.value? .output)))
      | "help" => .error (readHelp rest)
      | _ => .error .misuse

def request? (tokens : List String) : Option Request :=
  match readTool .none (tokens.length + 1) tokens with
  | .ok i => some (.run i)
  | .error .version => some .version
  | .error .help => some .help
  | .error .misuse => none

end ScriptBackend.Command
