import ScriptBackend.Binary64.Round

/-!
# Decimal rounding of exact fractions

Decimal texts of numbers are built from the exact fraction that a number is,
rounded once: to a count of significant digits (`Scientific.ofRatio`) or to a
count of decimal places (`fixed`), a half going to the even neighbour.
-/

namespace ScriptBackend.Decimal

def digits (n : Nat) : List Char := Nat.toDigits 10 n

def digitsWide (width n : Nat) : List Char :=
  List.replicate (width - (digits n).length) '0' ++ digits n

/-- The `x` with `10 ^ x ≤ num / den < 10 ^ (x + 1)`, for positive arguments. -/
def magnitude (num den : Nat) : Int :=
  if den ≤ num then ((digits (num / den)).length : Int) - 1
  else -((digits ((den - 1) / num)).length : Int)

def scaled (num den : Nat) (power : Int) : Nat × Nat :=
  (num * Nat.pow 10 power.toNat, den * Nat.pow 10 (-power).toNat)

/-- A positive number `mantissa * 10 ^ (exponent - places)`, where the mantissa has
`places + 1` digits: its value is about `10 ^ exponent`. -/
structure Scientific where
  mantissa : Nat
  exponent : Int
  deriving DecidableEq, Repr

/-- A positive fraction rounded to `places + 1` significant digits. A mantissa that
rounds up to the next power of ten gives a digit back to the exponent. -/
def Scientific.ofRatio (places num den : Nat) : Scientific :=
  let x := magnitude num den
  let (n, d) := scaled num den (places - x)
  let m := roundHalfEven n d
  if m = Nat.pow 10 (places + 1) then ⟨Nat.pow 10 places, x + 1⟩ else ⟨m, x⟩

def Scientific.mantissaText (s : Scientific) : List Char :=
  match digits s.mantissa with
  | [] => []
  | [d] => [d]
  | d :: rest => d :: '.' :: rest

def fixed (places num den : Nat) : List Char :=
  let (n, d) := scaled num den places
  let m := roundHalfEven n d
  let unit := Nat.pow 10 places
  let whole := digits (m / unit)
  if places = 0 then whole else whole ++ '.' :: digitsWide places (m % unit)

def stripZeros (cs : List Char) : List Char :=
  if '.' ∈ cs then
    ((cs.reverse.dropWhile (· = '0')).dropWhile (· = '.')).reverse
  else cs

end ScriptBackend.Decimal
