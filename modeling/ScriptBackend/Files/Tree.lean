import ScriptBackend.Files

/-!
# Files in memory

A tree of files, with the working directory two levels below the root. Paths are
walked step by step: every step but the last has to lead to a directory, also one
that a later `..` leaves again. Besides its files and the directories on the way to
them a tree holds the working directory and the null device.
-/

namespace ScriptBackend

open Text (Byte)

abbrev Place := List String

structure FileTree where
  files : List (Place × List Byte)

namespace FileTree

inductive Node where
  | directory
  | file (content : List Byte)
  /-- The null device: empty when read, and nothing written to it is kept. -/
  | null
  deriving DecidableEq, Repr

def workingDirectory : Place := ["tmp", "work"]

def nullDevice : Place := ["dev", "null"]

def maxName : Nat := 255

def maxPath : Nat := 4095

def steps (path : String) : List String := (path.splitOn "/").filter (· ≠ "")

def start (path : String) : Place := if path.startsWith "/" then [] else workingDirectory

def ofFiles (files : List (String × List Byte)) : FileTree :=
  ⟨files.map fun (name, content) => (workingDirectory ++ steps name, content)⟩

def isDirectory (t : FileTree) (p : Place) : Bool :=
  p.isPrefixOf workingDirectory || p.isPrefixOf nullDevice.dropLast ||
    t.files.any fun (file, _) => p.isPrefixOf file

def node? (t : FileTree) (p : Place) : Option Node :=
  if p = nullDevice then some .null
  else
    match t.files.lookup p with
    | some content => some (.file content)
    | none => if t.isDirectory p then some .directory else none

/-- One step of a path. Where it leads need not exist if it is a name. -/
def step (t : FileTree) (p : Place) (name : String) : Except FileError Place :=
  if t.node? p ≠ some .directory then .error .notDirectory
  else if name = "." then .ok p
  else if name = ".." then .ok p.dropLast
  else if maxName < name.utf8ByteSize then .error .nameTooLong
  else .ok (p ++ [name])

def enter (t : FileTree) (p : Place) (name : String) : Except FileError Place := do
  let next ← t.step p name
  if (t.node? next).isSome then pure next else throw .notFound

def checkPath (path : String) : Except FileError Unit :=
  if '\x00' ∈ path.toList then .error .nulInPath
  else if path.isEmpty then .error .notFound
  else if maxPath < path.utf8ByteSize then .error .nameTooLong
  else .ok ()

/-- A file's content. A slash at the end of a path asks for a directory. -/
def read (t : FileTree) (path : String) : Except FileError (List Byte) := do
  checkPath path
  let p ← (steps path).foldlM t.enter (start path)
  match t.node? p with
  | none => throw .notFound
  | some .directory => throw .isDirectory
  | some (.file content) => if path.endsWith "/" then throw .notDirectory else pure content
  | some .null => if path.endsWith "/" then throw .notDirectory else pure []

def setFile (t : FileTree) (p : Place) (content : List Byte) : FileTree :=
  ⟨(p, content) :: t.files.filter (·.1 ≠ p)⟩

/-- Replace a file's content or create the file. The last step of the path has to be a name
without a slash after it. -/
def write (t : FileTree) (path : String) (content : List Byte) : Except FileError FileTree := do
  checkPath path
  match (steps path).getLast? with
  | none => throw .isDirectory
  | some name =>
    let parent ← (steps path).dropLast.foldlM t.enter (start path)
    if t.node? parent ≠ some .directory then throw .notDirectory
    if name = "." || name = ".." || path.endsWith "/" then throw .isDirectory
    let p ← t.step parent name
    match t.node? p with
    | some .directory => throw .isDirectory
    | some .null => pure t
    | some (.file _) | none => pure (t.setFile p content)

def fileSystem : FileSystem (StateM FileTree) where
  read path := return (← get).read path
  write path content := do
    match (← get).write path content with
    | .ok t => set t; pure (.ok ())
    | .error e => pure (.error e)

end FileTree

end ScriptBackend
