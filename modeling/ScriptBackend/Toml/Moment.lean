import ScriptBackend.Literal.Numeral
import ScriptBackend.Toml.Parser
import ScriptBackend.Toml.Table

/-!
# TOML dates and times

No option is a date, so dates are checked and not kept.
-/

namespace ScriptBackend.Toml

def field (width low high : Nat) : Parser Nat := fun cs =>
  let ds := cs.take width
  let n := Numeral.ofDigits ds
  if ds.length = width && ds.all Char.isDigit && low ≤ n && n ≤ high then some (n, cs.drop width)
  else none

def daysOfMonth (year month : Nat) : Nat :=
  if month = 2 then
    if year % 4 = 0 ∧ (year % 100 ≠ 0 ∨ year % 400 = 0) then 29 else 28
  else if month ∈ [4, 6, 9, 11] then 30
  else 31

def date : Parser Unit := do
  let year ← field 4 0 9999
  expect '-'
  let month ← field 2 1 12
  expect '-'
  let _ ← field 2 1 (daysOfMonth year month)

def secondFraction : Parser Unit := do
  expect '.'
  let _ ← field 1 0 9
  modify (·.dropWhile Char.isDigit)

/-- Leap seconds are allowed. -/
def time : Parser Unit := do
  let _ ← field 2 0 23
  expect ':'
  let _ ← field 2 0 59
  expect ':'
  let _ ← field 2 0 60
  secondFraction <|> pure ()

def timeOffset : Parser Unit :=
  expect 'Z' <|> expect 'z' <|> do
    expect '+' <|> expect '-'
    let _ ← field 2 0 23
    expect ':'
    let _ ← field 2 0 59

def timeOfDate : Parser Unit := do
  expect 'T' <|> expect 't' <|> expect ' '
  time
  timeOffset <|> pure ()

def moment : Parser Node := do
  (date *> (timeOfDate <|> pure ())) <|> time
  pure .moment

end ScriptBackend.Toml
