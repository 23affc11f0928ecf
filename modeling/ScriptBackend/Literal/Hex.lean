import ScriptBackend.Literal.Numeral

/-!
# Hexadecimal numerals

Hex digits with an optional fraction and an optional binary exponent after `p`.
The digits are folded into a binary64 mantissa, rounding at each of them; the
exponent is kept within thirty-two signed bits.
-/

namespace ScriptBackend

structure HexNumeral where
  whole : List Char
  fraction : List Char
  /-- Decimal digits of the binary exponent; none if no exponent is written. -/
  exponent : List Char
  exponentNegative : Bool
  deriving DecidableEq, Repr

namespace HexNumeral

def isHexDigit (c : Char) : Bool :=
  c.isDigit || ('a' ≤ c && c ≤ 'f') || ('A' ≤ c && c ≤ 'F')

def digitValue (c : Char) : Nat :=
  if c.isDigit then c.toNat - '0'.toNat
  else if 'a' ≤ c then c.toNat - 'a'.toNat + 10
  else c.toNat - 'A'.toNat + 10

def scanFraction : List Char → List Char × List Char
  | '.' :: rest => (rest.takeWhile isHexDigit, rest.dropWhile isHexDigit)
  | rest => ([], rest)

def scanExponent : List Char → Bool × List Char
  | mark :: rest =>
    if mark = 'p' ∨ mark = 'P' then
      let (sign, rest) := Numeral.scanSign rest
      (sign == some '-', rest.takeWhile Char.isDigit)
    else (false, [])
  | [] => (false, [])

def scan (cs : List Char) : HexNumeral :=
  let whole := cs.takeWhile isHexDigit
  let (fraction, rest) := scanFraction (cs.dropWhile isHexDigit)
  let (exponentNegative, exponent) := scanExponent rest
  ⟨whole, fraction, exponent, exponentNegative⟩

def clamp (n : Int) : Int := max (-0x80000000) (min n 0x7FFFFFFF)

/-- The exponent's digits read with clamping at every step. -/
def exponentValue (digits : List Char) : Int :=
  digits.foldl (fun n c => clamp (clamp (n * 10) + (digitValue c : Int))) 0

/-- The power of two that scales the mantissa. Only the exponent is clamped: the places of the
fraction leave thirty-two signed bits from 2²⁹ digits on, and texts are taken to be shorter. -/
def scale (h : HexNumeral) : Int :=
  let places : Int := -4 * h.fraction.length
  let e := exponentValue h.exponent
  if h.exponent.isEmpty then places
  else clamp (places + if h.exponentNegative then -e else e)

def mantissa (h : HexNumeral) : Binary64 :=
  (h.whole ++ h.fraction).foldl
    (fun m c => m * .ofNat 16 + .ofNat (digitValue c)) (.zero false)

/-- Zero if there are no digits, whatever follows. -/
def value (h : HexNumeral) : Binary64 :=
  if h.whole.isEmpty && h.fraction.isEmpty then .zero false
  else h.mantissa * .twoPow h.scale

end HexNumeral

end ScriptBackend
