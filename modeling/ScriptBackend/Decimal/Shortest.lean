import ScriptBackend.Decimal.Rounded

/-!
# The fewest digits that read back

`shortest` writes a number with as few significant digits as still single it out
among all binary64 numbers, in positional notation whatever its size. Of two
decimals with that many digits the nearer is taken, the upper one on a tie.
-/

namespace ScriptBackend.Decimal

structure Scaled where
  count : Nat
  power : Int
  deriving DecidableEq, Repr

/-- The reals that round to a finite number, in quarters of its last place: from
`low` to `high` in units of `2 ^ exponent`, the ends included if `closed`. -/
structure Interval where
  low : Nat
  mid : Nat
  high : Nat
  exponent : Int
  closed : Bool

/-- Below a power of two the neighbour is half as far. -/
def Interval.of (x : Binary64) : Interval :=
  let m := x.significand
  let gap := if x.fraction = 0 ∧ 1 < x.exponentField then 1 else 2
  { low := 4 * m - gap, mid := 4 * m, high := 4 * m + 2
    exponent := x.exponent - 2, closed := m % 2 == 0 }

def onScale (c : Scaled) (n : Nat) (e : Int) : Nat × Nat :=
  (c.count * Nat.pow 10 c.power.toNat * Nat.pow 2 (-e).toNat,
   n * Nat.pow 2 e.toNat * Nat.pow 10 (-c.power).toNat)

def Interval.contains (i : Interval) (c : Scaled) : Bool :=
  let (a, low) := onScale c i.low i.exponent
  let (b, high) := onScale c i.high i.exponent
  if i.closed then decide (low ≤ a ∧ b ≤ high) else decide (low < a ∧ b < high)

def Interval.nearerBelow (i : Interval) (below above : Scaled) : Bool :=
  let (a, m) := onScale below i.mid i.exponent
  let (b, n) := onScale above i.mid i.exponent
  decide (m - a < b - n)

def Interval.pick (i : Interval) (num den : Nat) (power : Int) : Option Scaled :=
  let (n, d) := scaled num den (-power)
  let below : Scaled := ⟨n / d, power⟩
  let above : Scaled := if n % d = 0 then below else ⟨n / d + 1, power⟩
  match i.contains below, i.contains above with
  | true, true => some (if i.nearerBelow below above then below else above)
  | true, false => some below
  | false, true => some above
  | false, false => none

def maxDigits : Nat := 17

def Scaled.text (c : Scaled) : List Char :=
  if 0 ≤ c.power then digits c.count ++ List.replicate c.power.toNat '0'
  else
    let places := c.power.natAbs
    let unit := Nat.pow 10 places
    stripZeros (digits (c.count / unit) ++ '.' :: digitsWide places (c.count % unit))

def shortestScaled (x : Binary64) : Scaled :=
  let i := Interval.of x
  let top := magnitude x.numerator x.denominator
  let grids := (List.range maxDigits).map fun (n : Nat) => top - n
  (grids.findSome? (i.pick x.numerator x.denominator)).getD ⟨x.numerator / x.denominator, 0⟩

def shortest (x : Binary64) : String :=
  let sign := if x.isNegative then "-" else ""
  if x.isNaN then "NaN"
  else if x.isInfinite then sign ++ "inf"
  else if x.isZero then sign ++ "0"
  else sign ++ String.ofList (shortestScaled x).text

end ScriptBackend.Decimal
