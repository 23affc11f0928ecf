import ScriptBackend.Literal.Hex
import ScriptBackend.Toml.Parser
import ScriptBackend.Toml.Table

/-!
# TOML numbers

Integers of sixty-four signed bits, in four bases, and binary64 numbers. Digits
may be grouped by single underscores.
-/

namespace ScriptBackend.Toml

def groupedDigits (isDigit : Char → Bool) : List Char → List Char × List Char
  | '_' :: c :: rest =>
    if isDigit c then
      let (digits, rest) := groupedDigits isDigit rest
      (c :: digits, rest)
    else ([], '_' :: c :: rest)
  | c :: rest =>
    if isDigit c then
      let (digits, rest) := groupedDigits isDigit rest
      (c :: digits, rest)
    else ([], c :: rest)
  | [] => ([], [])

def digits (isDigit : Char → Bool) : Parser (List Char)
  | c :: rest =>
    if isDigit c then
      let (others, rest) := groupedDigits isDigit rest
      some (c :: others, rest)
    else none
  | [] => none

/-- Digits without a zero in front of others. -/
def decimalDigits : Parser (List Char)
  | '0' :: rest => some (['0'], rest)
  | cs => digits Char.isDigit cs

def sign : Parser (Option Char) := fun cs => some (Numeral.scanSign cs)

def integerNode (n : Int) : Option Node :=
  if -0x8000000000000000 ≤ n && n < 0x8000000000000000 then some (.integer n) else none

def basedInteger (mark : String) (base : Nat) (isDigit : Char → Bool) : Parser Node := do
  word mark
  let ds ← digits isDigit
  integerNode (ds.foldl (fun n c => n * base + HexNumeral.digitValue c) 0 : Nat)

def decimalInteger : Parser Node := do
  let sign ← sign
  let ds ← decimalDigits
  integerNode (if sign = some '-' then -(Numeral.ofDigits ds : Int) else Numeral.ofDigits ds)

def integer : Parser Node :=
  basedInteger "0x" 16 HexNumeral.isHexDigit <|>
    basedInteger "0o" 8 (fun c => '0' ≤ c && c ≤ '7') <|>
    basedInteger "0b" 2 (fun c => c = '0' || c = '1') <|>
    decimalInteger

def exponent : Parser Numeral.Exponent := do
  expect 'e' <|> expect 'E'
  let sign ← sign
  let ds ← digits Char.isDigit
  pure ⟨'e', sign, ds⟩

def fraction : Parser (List Char) := do
  expect '.'
  digits Char.isDigit

/-- A number with a fraction or an exponent. Positive overflow is refused. -/
def decimalFloat : Parser Node := do
  let sign ← sign
  let whole ← decimalDigits
  let fraction ← optional fraction
  let exponent ← optional exponent
  if fraction.isNone && exponent.isNone then failure
  let x := Numeral.value ⟨whole, fraction, exponent⟩ (sign == some '-')
  if x = .infinity false then failure
  pure (.float x)

def specialFloat : Parser Node := do
  let negative := (← sign) == some '-'
  (word "inf" *> pure (.float (.infinity negative))) <|> (word "nan" *> pure (.float .nan))

end ScriptBackend.Toml
