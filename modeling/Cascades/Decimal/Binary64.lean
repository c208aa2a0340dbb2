/-!
# Double-precision numbers

A number is kept as its 64 bits, so that it can be stored, compared and printed exactly. Its value,
where it has one, is `significand * 2 ^ exponent`.

Numbers are compared by value: all not-a-numbers are the same number, and so are the two zeros.
`normal` picks one representative of each value, and two numbers are the same exactly if their
representatives are equal.
-/

namespace Cascades

/-- A double-precision number, by its bits. -/
structure Binary64 where
  bits : UInt64
deriving DecidableEq

namespace Binary64

/-- Whether the sign bit is set. -/
def negative (number : Binary64) : Bool :=
  decide (UInt64.size / 2 ≤ number.bits.toNat)

/-- The eleven exponent bits. -/
def exponentField (number : Binary64) : Nat :=
  number.bits.toNat / Nat.pow 2 52 % Nat.pow 2 11

/-- The fifty-two fraction bits. -/
def fractionField (number : Binary64) : Nat :=
  number.bits.toNat % Nat.pow 2 52

/-- Whether the bits stand for no number. -/
def isNaN (number : Binary64) : Bool :=
  number.exponentField == 2047 && number.fractionField != 0

/-- Whether the number is one of the two infinities. -/
def isInfinite (number : Binary64) : Bool :=
  number.exponentField == 2047 && number.fractionField == 0

/-- Whether the number has a value. -/
def isFinite (number : Binary64) : Bool :=
  number.exponentField != 2047

/-- Whether the value is zero, whatever its sign. -/
def isZero (number : Binary64) : Bool :=
  number.exponentField == 0 && number.fractionField == 0

/-- The integer `m` of a finite value `m * 2 ^ exponent`. -/
def significand (number : Binary64) : Nat :=
  if number.exponentField = 0 then number.fractionField else Nat.pow 2 52 + number.fractionField

/-- The power of two that scales the significand. -/
def exponent (number : Binary64) : Int :=
  (if number.exponentField = 0 then 1 else number.exponentField : Nat) - 1075

/-- The representative of the bits that stand for no number. -/
def nan : Binary64 := ⟨0x7ff8000000000000⟩

/-- The infinity above all values. -/
def infinity : Binary64 := ⟨0x7ff0000000000000⟩

/-- The infinity below all values. -/
def negativeInfinity : Binary64 := ⟨0xfff0000000000000⟩

/-- The zero without a sign. -/
def zero : Binary64 := ⟨0⟩

/-- The representative of all numbers of the same value. -/
def normal (number : Binary64) : Binary64 :=
  if number.isNaN then nan else if number.isZero then zero else number

@[simp]
theorem normal_nan : nan.normal = nan := by decide

@[simp]
theorem normal_zero : zero.normal = zero := by decide

@[simp]
theorem normal_normal (number : Binary64) : number.normal.normal = number.normal := by
  by_cases invalid : number.isNaN
  · have collapsed : number.normal = nan := by simp only [normal, invalid, if_true]
    rw [collapsed, normal_nan]
  · by_cases vanishes : number.isZero
    · have collapsed : number.normal = zero := by
        simp only [normal, invalid, vanishes, if_true, Bool.false_eq_true, if_false]
      rw [collapsed, normal_zero]
    · have kept : number.normal = number := by
        simp only [normal, invalid, vanishes, Bool.false_eq_true, if_false]
      rw [kept, kept]

end Binary64

end Cascades
