import Cascades.Decimal.Binary64

/-!
# Decimal numerals

A numeral is a number as it is written, `digits * 10 ^ scale` with a sign. Its nearest
double-precision number is found in exact arithmetic: the value is divided by the power of two that
leaves a quotient of 53 bits, or by the smallest admitted one, and the quotient is rounded to the
nearest integer, a half to the even one. A quotient that is rounded up to 54 bits runs over into the
exponent, as it should.
-/

namespace Cascades

/-- A written number, which is whole if it has neither a point nor an exponent. -/
structure Numeral where
  negative : Bool
  digits : Nat
  scale : Int
  whole : Bool
deriving DecidableEq

namespace Numeral

/-- The numeral of a natural number. -/
def ofNat (number : Nat) : Numeral :=
  ⟨false, number, 0, true⟩

/-- The numeral of an integer. -/
def ofInt (number : Int) : Numeral :=
  ⟨decide (number < 0), number.natAbs, 0, true⟩

/-- The integer nearest to a quotient, the even one of two. -/
def roundHalfEven (numerator denominator : Nat) : Nat :=
  let quotient := numerator / denominator
  let rest := 2 * (numerator % denominator)
  if rest < denominator then quotient
  else if denominator < rest then quotient + 1
  else quotient + quotient % 2

/-- The numerator and the denominator of a quotient divided by a power of two. -/
def scaleDown (numerator denominator : Nat) (exponent : Int) : Nat × Nat :=
  if 0 ≤ exponent then (numerator, denominator * Nat.pow 2 exponent.toNat)
  else (numerator * Nat.pow 2 (-exponent).toNat, denominator)

/--
The smallest exponent that leaves a quotient below `2 ^ 53`, but at least the smallest admitted.
-/
def exponentFor (numerator denominator : Nat) : Int :=
  let guess : Int := max ((numerator.log2 : Int) - denominator.log2 - 53) (-1074)
  let (top, bottom) := scaleDown numerator denominator guess
  if top / bottom < Nat.pow 2 53 then guess else guess + 1

/-- The bits of the nearest double-precision number of a positive quotient. -/
def nearestBits (numerator denominator : Nat) : Nat :=
  let exponent := exponentFor numerator denominator
  let (top, bottom) := scaleDown numerator denominator exponent
  min ((exponent + 1074).toNat * Nat.pow 2 52 + roundHalfEven top bottom)
    Binary64.infinity.bits.toNat

/-- The bits of the nearest double-precision number, without its sign. -/
def magnitudeBits (numeral : Numeral) : Nat :=
  let length : Int := (Nat.toDigits 10 numeral.digits).length + numeral.scale
  if numeral.digits = 0 ∨ length < -400 then 0
  else if 400 < length then Binary64.infinity.bits.toNat
  else if 0 ≤ numeral.scale then nearestBits (numeral.digits * Nat.pow 10 numeral.scale.toNat) 1
  else nearestBits numeral.digits (Nat.pow 10 (-numeral.scale).toNat)

/-- The nearest double-precision number. -/
def nearest (numeral : Numeral) : Binary64 :=
  ⟨UInt64.ofNat (numeral.magnitudeBits + if numeral.negative then UInt64.size / 2 else 0)⟩

/-- The text of a numeral. -/
def text (numeral : Numeral) : String :=
  (if numeral.negative then "-" else "") ++ toString numeral.digits ++
    (if numeral.whole then "" else "e" ++ toString numeral.scale)

end Numeral

end Cascades
