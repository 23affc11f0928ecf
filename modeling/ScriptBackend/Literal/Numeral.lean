import ScriptBackend.Binary64.Round

/-!
# Decimal numerals

A numeral is digits with an optional fraction and an optional exponent; at least
one digit stands before or after the point. `Numeral.scan?` takes the longest
numeral at the front of a text.
-/

namespace ScriptBackend

structure Numeral.Exponent where
  /-- `e` or `E`. -/
  mark : Char
  /-- `+` or `-`, if written. -/
  sign : Option Char
  digits : List Char
  deriving DecidableEq, Repr

structure Numeral where
  whole : List Char
  /-- The digits after a point, if there is a point. -/
  fraction : Option (List Char)
  exponent : Option Numeral.Exponent
  deriving DecidableEq, Repr

namespace Numeral

def ofDigits (cs : List Char) : Nat := cs.foldl (fun n c => 10 * n + (c.toNat - '0'.toNat)) 0

def scanSign : List Char → Option Char × List Char
  | '+' :: rest => (some '+', rest)
  | '-' :: rest => (some '-', rest)
  | rest => (none, rest)

def scanFraction : List Char → Option (List Char) × List Char
  | '.' :: rest => (some (rest.takeWhile Char.isDigit), rest.dropWhile Char.isDigit)
  | rest => (none, rest)

/-- An exponent needs a digit; without one its mark belongs to what follows. -/
def scanExponent (cs : List Char) : Option Exponent × List Char :=
  match cs with
  | mark :: rest =>
    if mark = 'e' ∨ mark = 'E' then
      let (sign, rest) := scanSign rest
      match rest.takeWhile Char.isDigit with
      | [] => (none, cs)
      | digits => (some ⟨mark, sign, digits⟩, rest.dropWhile Char.isDigit)
    else (none, cs)
  | [] => (none, [])

/-- The longest numeral at the front of a text, and what follows it. -/
def scan? (cs : List Char) : Option (Numeral × List Char) :=
  let whole := cs.takeWhile Char.isDigit
  let (fraction, rest) := scanFraction (cs.dropWhile Char.isDigit)
  if whole.isEmpty && (fraction.getD []).isEmpty then none
  else
    let (exponent, rest) := scanExponent rest
    some (⟨whole, fraction, exponent⟩, rest)

def Exponent.value (e : Exponent) : Int :=
  if e.sign = some '-' then -(ofDigits e.digits : Int) else ofDigits e.digits

def Exponent.text (e : Exponent) : List Char := e.mark :: e.sign.toList ++ e.digits

def text (n : Numeral) : List Char :=
  n.whole ++ (n.fraction.elim [] ('.' :: ·)) ++ (n.exponent.elim [] Exponent.text)

def value (n : Numeral) (negative : Bool) : Binary64 :=
  let fraction := n.fraction.getD []
  let exponent := (n.exponent.map Exponent.value).getD 0
  .ofDecimal negative (ofDigits (n.whole ++ fraction)) (exponent - fraction.length)

end Numeral

end ScriptBackend
