import ScriptBackend.Decimal.Rounded

/-!
# Numbers with six significant digits

`general` is the text under which a number is interned as a string literal: six
significant digits without trailing zeros, in exponent form where the decimal
exponent, taken after rounding, is below -4 or from 6 up.
-/

namespace ScriptBackend.Decimal

def precision : Nat := 6

def exponentText (x : Int) : List Char :=
  'e' :: (if x < 0 then '-' else '+') :: digitsWide 2 x.natAbs

def generalRatio (num den : Nat) : List Char :=
  let s := Scientific.ofRatio (precision - 1) num den
  if s.exponent < -4 ∨ (precision : Int) ≤ s.exponent then
    stripZeros s.mantissaText ++ exponentText s.exponent
  else
    stripZeros (fixed ((precision - 1 : Nat) - s.exponent).toNat num den)

/-- The general form of a number. A zero keeps its sign, a NaN shows none. -/
def general (x : Binary64) : String :=
  let sign := if x.isNegative then "-" else ""
  if x.isNaN then "nan"
  else if x.isInfinite then sign ++ "inf"
  else if x.isZero then sign ++ "0"
  else sign ++ String.ofList (generalRatio x.numerator x.denominator)

end ScriptBackend.Decimal
