/-!
# Reading text

A parser takes what it reads from the front of the text. Besides what every part
of a document needs, this holds its blanks: spaces, newlines and comments.
-/

namespace ScriptBackend.Toml

abbrev Parser := StateT (List Char) Option

def isSpace (c : Char) : Bool := c = ' ' || c = '\t'

def isCommentChar (c : Char) : Bool := c = '\t' || (' ' ≤ c && c ≠ '\x7f')

def expect (c : Char) : Parser Unit
  | d :: rest => if c = d then some ((), rest) else none
  | [] => none

def word (w : String) : Parser Unit := fun cs =>
  if w.toList.isPrefixOf cs then some ((), cs.drop w.length) else none

def spaces : Parser Unit := fun cs => some ((), cs.dropWhile isSpace)

def newline : Parser Unit
  | '\n' :: rest => some ((), rest)
  | '\r' :: '\n' :: rest => some ((), rest)
  | _ => none

def lineEnd : Parser Unit
  | [] => some ((), [])
  | cs => newline cs

def comment : Parser Unit
  | '#' :: rest => some ((), rest.dropWhile isCommentChar)
  | _ => none

def lineTrailing : Parser Unit := do
  spaces
  comment <|> pure ()
  lineEnd

mutual

def skipLines : List Char → Option (List Char)
  | [] => some []
  | '\r' :: '\n' :: rest => skipLines rest
  | c :: rest =>
    if isSpace c || c = '\n' then skipLines rest
    else if c = '#' then skipComment rest
    else some (c :: rest)

def skipComment : List Char → Option (List Char)
  | [] => none
  | '\n' :: rest => skipLines rest
  | '\r' :: '\n' :: rest => skipLines rest
  | c :: rest => if isCommentChar c then skipComment rest else none

end

def blankLines : Parser Unit := fun cs => (skipLines cs).map fun rest => ((), rest)

/-- One or more items with a separator between them. A separator that no item follows is
left where it is. -/
def separated {α : Type} (item : Parser α) (separator : Char) : Parser (List α) := fun cs => do
  let (first, rest) ← item cs
  let (others, rest) := go cs.length rest
  some (first :: others, rest)
where
  /-- Every item takes at least one character, so the length of the text bounds their number. -/
  go : Nat → List Char → List α × List Char
    | 0, cs => ([], cs)
    | fuel + 1, cs =>
      match (expect separator *> item).run cs with
      | none => ([], cs)
      | some (a, rest) =>
        let (others, rest) := go fuel rest
        (a :: others, rest)

end ScriptBackend.Toml
