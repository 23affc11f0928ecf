import ScriptBackend.Command.Arguments
import ScriptBackend.Command.Demo
import ScriptBackend.Image.Listing
import ScriptBackend.Options.Load

/-!
# Commands

The command line as a function of its arguments, the environment and the files it
can reach. An outcome is an exit code and what goes to the two output streams.
-/

namespace ScriptBackend.Command

open Text (Byte)

structure Outcome where
  code : Nat
  stdout : String
  stderr : String
  deriving DecidableEq, Repr

def success (stdout : String) : Outcome := ⟨0, stdout, ""⟩

/-- A failure with its causes, the nearest first. Several causes are numbered. -/
def failure (message : String) (causes : List String) : Outcome :=
  let listed :=
    match causes with
    | [] => []
    | [cause] => ["    " ++ cause]
    | causes => causes.zipIdx.map fun (cause, n) => "    " ++ toString n ++ ": " ++ cause
  let lines := ("Error: " ++ message) :: if listed.isEmpty then [] else "" :: "Caused by:" :: listed
  ⟨1, "", String.join (lines.map (· ++ "\n"))⟩

def versionText : String := "cinder 0.1.0\n"

def helpText : String :=
  String.join <| [
    "Script bytecode backend tools", "", "Usage: cinder [OPTIONS] <COMMAND>", "", "Commands:",
    "  dump  Print a compiled image", "  demo  Compile a built-in loop and print or write it",
    "  help  Print this message or the help of the given subcommand(s)", "", "Options:",
    "  -v, --verbose          Log at debug level",
    "      --config <CONFIG>  TOML file with compiler options",
    "  -h, --help             Print help", "  -V, --version          Print version"].map (· ++ "\n")

def failureCauses (f : Failure) : List String :=
  f.message ::
    match f with
    | .encoding _ cause | .decoding _ cause => [cause.message]
    | _ => []

def failureOutcome (f : Failure) : Outcome :=
  match f with
  | .storage fault => ⟨101, "", fault.message ++ "\n"⟩
  | _ => failure f.message (failureCauses f).tail

def loadFailure : Options.LoadError → Outcome
  -- Where a document is wrong is not told.
  | .malformed _ => ⟨1, "", "Error: loading compiler options"⟩
  | e@(.unreadable _ cause) => failure "loading compiler options" [e.message, cause.message]
  | e => failure "loading compiler options" [e.message]

section

variable {m : Type → Type} [Monad m]

def dump (fs : FileSystem m) (file : String) : m Outcome := do
  match ← fs.read file with
  | .error e => pure (failure ("failed to read '" ++ file ++ "'") [e.message])
  | .ok bs =>
    match Image.read bs with
    | .error e => pure (failure ("failed to decode '" ++ file ++ "'") (failureCauses e))
    | .ok image => pure (success image.listing)

def store (fs : FileSystem m) (s : Session) (file : String) : m Outcome := do
  match s.write [] with
  | (.error e, _) => pure (failureOutcome e)
  | (.ok (), bs) =>
    match ← fs.write file bs with
    | .error e => pure (failure ("failed to write '" ++ file ++ "'") [e.message])
    | .ok () => pure (success "")

def demo (fs : FileSystem m) (options : Options) (output : Option String) : m Outcome :=
  match Demo.compile.run (Session.new options) with
  | (.error e, _) => pure (failureOutcome e)
  | (.ok (), s) =>
    match output with
    | some file => store fs s file
    | none =>
      match s.image with
      | .error e => pure (failureOutcome e)
      | .ok image => pure (success image.listing)

/-- Options are loaded before anything else is done. -/
def invoke (fs : FileSystem m) (env : Options.Environment) (i : Invocation) : m Outcome := do
  match ← Options.load fs env i.config with
  | .error e => pure (loadFailure e)
  | .ok options =>
    match i.action with
    | .dump file => dump fs file
    | .demo deferred strict output =>
      demo fs { options with
        mode := if deferred then .deferred else options.mode
        strict := options.strict || strict } output

def run (fs : FileSystem m) (env : Options.Environment) (tokens : List String) : m Outcome :=
  match request? tokens with
  | none => pure ⟨2, "", helpText⟩
  | some .version => pure (success versionText)
  | some .help => pure (success helpText)
  | some (.run i) => invoke fs env i

end

end ScriptBackend.Command
