import ScriptBackend.Binary64.Basic

/-!
# Rounding to binary64

`ofRatio` gives the number nearest to a fraction of natural numbers, a tie going
to the even neighbour. The arithmetic of the library is exact arithmetic on
fractions followed by this one rounding.
-/

namespace ScriptBackend

def roundHalfEven (num den : Nat) : Nat :=
  let q := num / den
  let r := num % den
  if 2 * r < den then q
  else if den < 2 * r then q + 1
  else q + q % 2

namespace Binary64

/-- Exponent of the last place of the number nearest to `num / den`: the quotient
by `2 ^ ulpExponent` has at most fifty-three bits, and no place lies below the
subnormals' one. -/
def ulpExponent (num den : Nat) : Int :=
  let guess : Int := (Nat.log2 num : Int) - Nat.log2 den - 53
  let quotient := num * Nat.pow 2 (-guess).toNat / (den * Nat.pow 2 guess.toNat)
  max (-1074) (if quotient < 2 * exponentUnit then guess else guess + 1)

def roundMagnitude (num den : Nat) : Nat :=
  let e := ulpExponent num den
  let m := roundHalfEven (num * Nat.pow 2 (-e).toNat) (den * Nat.pow 2 e.toNat)
  -- The leading bit of a normal significand carries into the exponent field.
  min ((e + 1074).toNat * exponentUnit + m) infinityPattern

def ofRatio (negative : Bool) (num den : Nat) : Binary64 :=
  pack negative (if num = 0 then 0 else roundMagnitude num den)

/-- Decimal exponents beyond this bound overflow or vanish whatever the digits. -/
def decimalReach : Int := 400

def ofDecimal (negative : Bool) (digits : Nat) (exponent : Int) : Binary64 :=
  let top : Int := (Nat.toDigits 10 digits).length + exponent
  if digits = 0 then zero negative
  else if decimalReach < top then infinity negative
  else if top < -decimalReach then zero negative
  else ofRatio negative (digits * Nat.pow 10 exponent.toNat) (Nat.pow 10 (-exponent).toNat)

/-- The magnitude of a sum of finite numbers, as an exact signed numerator over
`x.denominator * y.denominator`. -/
def sumNumerator (x y : Binary64) : Int :=
  signed x (x.numerator * y.denominator) + signed y (y.numerator * x.denominator)
where
  signed (x : Binary64) (n : Nat) : Int := if x.isNegative then -n else n

instance : Add Binary64 where
  add x y :=
    if x.isNaN || y.isNaN then nan
    else if x.isInfinite then
      if y.isInfinite && x.isNegative != y.isNegative then nan else x
    else if y.isInfinite then y
    else
      let s := sumNumerator x y
      if s = 0 then zero (x.isNegative && y.isNegative)
      else ofRatio (decide (s < 0)) s.natAbs (x.denominator * y.denominator)

instance : Mul Binary64 where
  mul x y :=
    let negative := x.isNegative != y.isNegative
    if x.isNaN || y.isNaN then nan
    else if x.isInfinite || y.isInfinite then
      if x.isZero || y.isZero then nan else infinity negative
    else ofRatio negative (x.numerator * y.numerator) (x.denominator * y.denominator)

def ofNat (n : Nat) : Binary64 := ofRatio false n 1

/-- Two to an integer power. A power from 1024 up is infinite, and a negative power
is the reciprocal of the positive one, hence zero from -1024 down. -/
def twoPow (n : Int) : Binary64 :=
  if 1024 ≤ n then infinity false
  else if n ≤ -1024 then zero false
  else ofRatio false (Nat.pow 2 n.toNat) (Nat.pow 2 (-n).toNat)

end Binary64

end ScriptBackend
