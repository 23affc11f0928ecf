import ScriptBackend.Literal.Hex
import ScriptBackend.Toml.Parser

/-!
# TOML strings and keys

Strings stand in double quotes, with escapes, or in single quotes, without; three
quotes make a string of several lines. A key is a bare word or a string on one
line, and dots join keys to a path.
-/

namespace ScriptBackend.Toml

def isBasicChar (c : Char) : Bool := isCommentChar c && c ≠ '"' && c ≠ '\\'

def isLiteralChar (c : Char) : Bool := isCommentChar c && c ≠ '\''

def shortEscape : Char → Option Char
  | 'b' => some '\x08'
  | 't' => some '\t'
  | 'n' => some '\n'
  | 'f' => some '\x0c'
  | 'r' => some '\r'
  | '"' => some '"'
  | '\\' => some '\\'
  | _ => none

def codePoint (digits : List Char) : Option Char :=
  let n := digits.foldl (fun n c => n * 16 + HexNumeral.digitValue c) 0
  if digits.all HexNumeral.isHexDigit && (n < 0xD800 || (0xDFFF < n && n < 0x110000)) then
    some (Char.ofNat n)
  else none

def escape : Parser Char
  | 'u' :: rest => do
    let c ← codePoint (rest.take 4)
    if rest.length < 4 then none else some (c, rest.drop 4)
  | 'U' :: rest => do
    let c ← codePoint (rest.take 8)
    if rest.length < 8 then none else some (c, rest.drop 8)
  | c :: rest => do
    let c ← shortEscape c
    some (c, rest)
  | [] => none

def dropBlankLines : List Char → List Char
  | '\r' :: '\n' :: rest => dropBlankLines rest
  | c :: rest => if isSpace c || c = '\n' then dropBlankLines rest else c :: rest
  | [] => []

def lineContinuation : Parser Unit := do
  spaces
  newline
  modify dropBlankLines

def basicBody : (fuel : Nat) → Parser (List Char)
  | 0, _ => none
  | _ + 1, [] => none
  | fuel + 1, c :: rest =>
    if c = '"' then some ([], rest)
    else if c = '\\' then do
      let (e, rest) ← escape rest
      let (body, rest) ← basicBody fuel rest
      some (e :: body, rest)
    else if isBasicChar c then do
      let (body, rest) ← basicBody fuel rest
      some (c :: body, rest)
    else none

/-- The closing quotes of a string of several lines: three, or up to two more that still
belong to the string. -/
def closingQuotes (quote : Char) : Parser (List Char) := fun cs =>
  let run := (cs.takeWhile (· = quote)).length
  if run < 3 then none
  else
    let inner := min (run - 3) 2
    some (List.replicate inner quote, cs.drop (inner + 3))

def multilineBody (quote : Char) (escapes : Bool) (isPlain : Char → Bool) :
    (fuel : Nat) → Parser (List Char)
  | 0, _ => none
  | fuel + 1, cs =>
    match closingQuotes quote cs, cs with
    | some (body, rest), _ => some (body, rest)
    | none, [] => none
    | none, '\r' :: '\n' :: rest => do
      let (body, rest) ← multilineBody quote escapes isPlain fuel rest
      some ('\n' :: body, rest)
    | none, c :: rest =>
      if escapes && c = '\\' then
        match lineContinuation.run rest with
        | some ((), rest) => multilineBody quote escapes isPlain fuel rest
        | none => do
          let (e, rest) ← escape rest
          let (body, rest) ← multilineBody quote escapes isPlain fuel rest
          some (e :: body, rest)
      else if c = '\n' || c = quote || isPlain c then do
        let (body, rest) ← multilineBody quote escapes isPlain fuel rest
        some (c :: body, rest)
      else none

def bounded {α : Type} (p : Nat → Parser α) : Parser α := fun cs => p (cs.length + 1) cs

def basicString : Parser String := do
  expect '"'
  String.ofList <$> bounded basicBody

def literalString : Parser String := do
  expect '\''
  let body ← modifyGet fun cs => (cs.takeWhile isLiteralChar, cs.dropWhile isLiteralChar)
  expect '\''
  pure (String.ofList body)

/-- A newline right after the opening quotes is not part of the string. -/
def multilineString (quote : Char) (escapes : Bool) (isPlain : Char → Bool) : Parser String := do
  expect quote
  expect quote
  expect quote
  newline <|> pure ()
  String.ofList <$> bounded (multilineBody quote escapes isPlain)

def string : Parser String :=
  multilineString '"' true isBasicChar <|> multilineString '\'' false isLiteralChar <|>
    basicString <|> literalString

def isBareKeyChar (c : Char) : Bool := c.isAlphanum || c = '-' || c = '_'

def bareKey : Parser String := fun cs =>
  match cs.takeWhile isBareKeyChar with
  | [] => none
  | key => some (String.ofList key, cs.dropWhile isBareKeyChar)

def maxDepth : Nat := 80

def dottedKey : Parser (List String × String) := do
  let keys ← separated (spaces *> (basicString <|> literalString <|> bareKey) <* spaces) '.'
  match keys.reverse with
  | [] => failure
  | last :: path => if keys.length < maxDepth then pure (path.reverse, last) else failure

end ScriptBackend.Toml
