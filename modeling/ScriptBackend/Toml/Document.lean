import ScriptBackend.Toml.Moment
import ScriptBackend.Toml.Number
import ScriptBackend.Toml.Text

/-!
# TOML documents

A document is read line by line: entries go to the table of the last header, and
a header files that table away and opens another.
-/

namespace ScriptBackend.Toml

def scalar : Parser Node :=
  (.string <$> string) <|> moment <|> decimalFloat <|> integer <|> specialFloat <|>
    (word "true" *> pure (.boolean true)) <|> (word "false" *> pure (.boolean false))

/-- Values between brackets; a comma may follow the last one. -/
def arrayOf (value : Parser Node) : Parser Node := do
  expect '['
  let elements ← separated (blankLines *> value <* blankLines) ',' <|> pure []
  if !elements.isEmpty then expect ',' <|> pure ()
  blankLines
  expect ']'
  pure (.array elements)

def entryOf (value : Parser Node) : Parser ((List String × String) × Node) := do
  let key ← dottedKey
  expect '='
  spaces
  let v ← value
  pure (key, v)

/-- Entries between braces, on one line and without a comma after the last. -/
def inlineOf (value : Parser Node) : Parser Node := do
  expect '\x7b'
  let entries ← separated (entryOf value <* spaces) ',' <|> pure []
  spaces
  expect '\x7d'
  let ((), t) ← (entries.forM fun ((path, key), v) => Table.insert path key v).run Table.empty
  pure (.inline t)

/-- A value with at most `room` arrays and inline tables around its scalars. -/
def value : (room : Nat) → Parser Node
  | 0 => scalar
  | room + 1 => scalar <|> arrayOf (value room) <|> inlineOf (value room)

structure Builder where
  root : Table
  /-- The table that entries go to, not yet part of `root`. -/
  current : Table
  /-- Where it will be filed; nowhere for the entries before the first header. -/
  place : Option (List String × String)
  /-- Whether its header is repeated. -/
  repeated : Bool

namespace Builder

def start : Builder := ⟨.empty, .empty, none, false⟩

def filed (b : Builder) : Option Table :=
  match b.place with
  | none => some b.current
  | some (path, key) => do
    let ((), root) ← Table.update false path (fun t =>
      if b.repeated then
        match t.get? key with
        | none => some ((), t.set key (.tables [b.current]))
        | some (.tables ts) => some ((), t.set key (.tables (ts ++ [b.current])))
        | some _ => none
      else some ((), t.set key (.table b.current))) b.root
    some root

/-- A header opens a new table, or one that has only been passed through so far. -/
def openTable (b : Builder) (path : List String) (key : String) : Option Builder := do
  let root ← b.filed
  let (entries, root) ← Table.update false path (fun t =>
    match t.get? key with
    | none => some ([], t)
    | some (.table child) =>
      if child.implicit && !child.dotted then some (child.entries, t.erase key) else none
    | some _ => none) root
  some ⟨root, .mk false false entries, some (path, key), false⟩

def openElement (b : Builder) (path : List String) (key : String) : Option Builder := do
  let root ← b.filed
  let ((), root) ← Table.update false path (fun t =>
    match t.get? key with
    | none => some ((), t.set key (.tables []))
    | some (.tables _) => some ((), t)
    | some _ => none) root
  some ⟨root, .empty, some (path, key), true⟩

def addEntry (b : Builder) (path : List String) (key : String) (v : Node) : Option Builder := do
  let ((), current) ← (Table.insert path key v).run b.current
  some { b with current }

end Builder

def elementHeader : Parser (List String × String) := word "[[" *> dottedKey <* word "]]"

def tableHeader : Parser (List String × String) := expect '[' *> dottedKey <* expect ']'

def line (b : Builder) : Parser Builder := do
  match ← get with
  | '#' :: _ =>
    comment
    lineEnd
    pure b
  | '[' :: '[' :: _ =>
    let (path, key) ← elementHeader
    lineTrailing
    b.openElement path key
  | '[' :: _ =>
    let (path, key) ← tableHeader
    lineTrailing
    b.openTable path key
  | '\n' :: _ | '\r' :: _ =>
    newline
    pure b
  | _ =>
    let ((path, key), v) ← entryOf (value (maxDepth - 1))
    lineTrailing
    b.addEntry path key v

/-- The lines of a text, each of which takes at least one character. -/
def document (b : Builder) : (fuel : Nat) → List Char → Option Builder
  | 0, _ => none
  | fuel + 1, cs =>
    match cs.dropWhile isSpace with
    | [] => some b
    | cs => do
      let (b, rest) ← line b cs
      document b fuel rest

def parse (text : String) : Option Table := do
  let cs := text.toList
  let cs := if cs.head? = some '\ufeff' then cs.tail else cs
  let b ← document .start (cs.length + 1) cs
  b.filed

end ScriptBackend.Toml
