import ScriptBackend.Text.Utf8

/-!
# Files

Commands reach files through `FileSystem`, so that they can be run against the
disk or against a tree of files in memory.
-/

namespace ScriptBackend

open Text (Byte)

inductive FileError where
  /-- The system's reason and its number. -/
  | system (reason : String) (number : Nat)
  /-- A path holds the character that ends it. -/
  | nulInPath
  /-- The file is not text. -/
  | notText
  deriving DecidableEq, Repr

namespace FileError

def notFound : FileError := .system "No such file or directory" 2

def notDirectory : FileError := .system "Not a directory" 20

def isDirectory : FileError := .system "Is a directory" 21

def nameTooLong : FileError := .system "File name too long" 36

def message : FileError → String
  | .system reason number => reason ++ " (os error " ++ toString number ++ ")"
  | .nulInPath => "file name contained an unexpected NUL byte"
  | .notText => "stream did not contain valid UTF-8"

end FileError

structure FileSystem (m : Type → Type) where
  read : String → m (Except FileError (List Byte))
  write : String → List Byte → m (Except FileError Unit)

def FileSystem.readText {m : Type → Type} [Monad m] (fs : FileSystem m) (path : String) :
    m (Except FileError String) := do
  match ← fs.read path with
  | .error e => pure (.error e)
  | .ok bs => pure ((Text.ofBytes? bs).elim (.error .notText) .ok)

end ScriptBackend
