/-!
# Binary64 numbers

A number is its 64-bit pattern: a sign bit, eleven exponent bits and fifty-two
fraction bits. Keeping the pattern keeps every NaN apart from every other, as
float pools and images do. Equality of patterns is `=`; numeric equality, under
which the two zeros agree and a NaN agrees with nothing, is `numEq`.
-/

namespace ScriptBackend

structure Binary64 where
  bits : UInt64
  deriving DecidableEq, Repr, Inhabited

namespace Binary64

def signUnit : Nat := 0x8000000000000000

def exponentUnit : Nat := 0x10000000000000

def isNegative (x : Binary64) : Bool := decide (signUnit ≤ x.bits.toNat)

def exponentField (x : Binary64) : Nat := x.bits.toNat / exponentUnit % 2048

def fraction (x : Binary64) : Nat := x.bits.toNat % exponentUnit

def isNaN (x : Binary64) : Bool := x.exponentField == 2047 && x.fraction != 0

def isInfinite (x : Binary64) : Bool := x.exponentField == 2047 && x.fraction == 0

def isZero (x : Binary64) : Bool := x.exponentField == 0 && x.fraction == 0

/-- Equality of numbers: zeros agree whatever their sign, a NaN agrees with nothing. -/
def numEq (x y : Binary64) : Bool :=
  !x.isNaN && !y.isNaN && (x.bits == y.bits || (x.isZero && y.isZero))

/-- A finite number is `significand * 2 ^ exponent` up to its sign. -/
def significand (x : Binary64) : Nat :=
  if x.exponentField = 0 then x.fraction else x.fraction + exponentUnit

def exponent (x : Binary64) : Int := (max x.exponentField 1 : Nat) - 1075

def numerator (x : Binary64) : Nat := x.significand * Nat.pow 2 x.exponent.toNat

def denominator (x : Binary64) : Nat := Nat.pow 2 (-x.exponent).toNat

def pack (negative : Bool) (magnitude : Nat) : Binary64 :=
  ⟨UInt64.ofNat (magnitude + if negative then signUnit else 0)⟩

def zero (negative : Bool) : Binary64 := pack negative 0

def one : Binary64 := ⟨0x3FF0000000000000⟩

/-- Pattern of an infinite magnitude; every finite magnitude lies below it. -/
def infinityPattern : Nat := 2047 * exponentUnit

def infinity (negative : Bool) : Binary64 := pack negative infinityPattern

def nan : Binary64 := ⟨0x7FF8000000000000⟩

instance : Neg Binary64 := ⟨fun x => ⟨x.bits ^^^ 0x8000000000000000⟩⟩

end Binary64

end ScriptBackend
