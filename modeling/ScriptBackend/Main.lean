import ScriptBackend.Command

/-!
# The program

Runs the command line against the disk and the process environment.
-/

namespace ScriptBackend

def fileError : IO.Error → FileError
  | .noFileOrDirectory .. => .notFound
  | .inappropriateType _ number reason => .system reason number.toNat
  | .invalidArgument _ number reason => .system reason number.toNat
  | .permissionDenied _ number reason => .system reason number.toNat
  | e => .system (toString e) 0

def diskFiles : FileSystem IO where
  read path := do
    try
      let content ← IO.FS.readBinFile path
      pure (.ok content.toList)
    catch e => pure (.error (fileError e))
  write path content := do
    try
      IO.FS.writeBinFile path ⟨content.toArray⟩
      pure (.ok ())
    catch e => pure (.error (fileError e))

end ScriptBackend

open ScriptBackend in
def main (arguments : List String) : IO UInt32 := do
  let mode ← IO.getEnv Options.modeVariable
  let strict ← IO.getEnv Options.strictVariable
  let env : Options.Environment := fun name =>
    if name = Options.modeVariable then mode
    else if name = Options.strictVariable then strict
    else none
  let outcome ← Command.run diskFiles env arguments
  IO.print outcome.stdout
  IO.eprint outcome.stderr
  pure (UInt32.ofNat outcome.code)
