import Cascades.Decimal.Binary64

/-!
# Shortest decimal text

The text of a number is the decimal with the fewest digits that reads back as the same number. The
reals that read back as a finite number form an interval around it; the text is the point of the
interval on the coarsest grid `10 ^ k` that has one. Of two such points the nearer is taken, and of
two equally near ones the larger.

Texts are positional, with neither an exponent nor a fraction that ends in a zero.
-/

namespace Cascades

namespace Binary64

/--
The reals that round to a number, in units of `2 ^ exponent`: from `lower` to `upper`, the ends
included if `closed`.
-/
structure RoundingInterval where
  lower : Nat
  value : Nat
  upper : Nat
  closed : Bool
  exponent : Int

/--
The interval of a positive finite number, in quarters of its last place. The gap below a power of
two is half the gap above it.
-/
def roundingInterval (number : Binary64) : RoundingInterval where
  lower :=
    if number.fractionField = 0 ∧ 1 < number.exponentField then 4 * number.significand - 1
    else 4 * number.significand - 2
  value := 4 * number.significand
  upper := 4 * number.significand + 2
  closed := number.significand % 2 == 0
  exponent := number.exponent - 2

namespace RoundingInterval

/--
The factor by which `position * unit interval grid` and `bound * scale interval grid` compare.
-/
def unit (interval : RoundingInterval) (grid : Int) : Nat :=
  Nat.pow 10 grid.toNat * Nat.pow 2 (-interval.exponent).toNat

/-- What a bound of the interval is multiplied by for the comparison with a grid point. -/
def scale (interval : RoundingInterval) (grid : Int) : Nat :=
  Nat.pow 2 interval.exponent.toNat * Nat.pow 10 (-grid).toNat

/-- Whether the grid point `position * 10 ^ grid` lies in the interval. -/
def contains (interval : RoundingInterval) (grid : Int) (position : Nat) : Bool :=
  let point := position * interval.unit grid
  let lower := interval.lower * interval.scale grid
  let upper := interval.upper * interval.scale grid
  if interval.closed then decide (lower ≤ point) && decide (point ≤ upper)
  else decide (lower < point) && decide (point < upper)

/-- The grid point of the interval that is nearest to the number, the larger one on a tie. -/
def nearest? (interval : RoundingInterval) (grid : Int) : Option Nat :=
  let below := interval.value * interval.scale grid / interval.unit grid
  let above := below + 1
  let aboveIsNearer :=
    decide ((below + above) * interval.unit grid ≤ 2 * interval.value * interval.scale grid)
  match interval.contains grid below, interval.contains grid above with
  | true, true => some (if aboveIsNearer then above else below)
  | true, false => some below
  | false, true => some above
  | false, false => none

/-- The first grid with a point in the interval, from `grid` to finer ones. -/
def coarsest (interval : RoundingInterval) : Nat → Int → Nat × Int
  | 0, grid => (0, grid)
  | attempts + 1, grid =>
      match interval.nearest? grid with
      | some position => (position, grid)
      | none => interval.coarsest attempts (grid - 1)

end RoundingInterval

/-- A count of decimal digits that no finite number exceeds before the point. -/
def integerDigits (number : Binary64) : Nat :=
  (toString (number.significand * Nat.pow 2 number.exponent.toNat)).length

/-- The position and the grid of the shortest decimal of a positive finite number. -/
def shortestDecimal (number : Binary64) : Nat × Int :=
  number.roundingInterval.coarsest (number.integerDigits + 1100) number.integerDigits

/-- The decimal `position * 10 ^ grid` without an exponent. -/
def positionalText (position : Nat) (grid : Int) : String :=
  if 0 ≤ grid then toString (position * Nat.pow 10 grid.toNat)
  else
    let places := (-grid).toNat
    let fraction := toString (position % Nat.pow 10 places)
    let zeros := String.ofList (List.replicate (places - fraction.length) '0')
    toString (position / Nat.pow 10 places) ++ "." ++ zeros ++ fraction

/-- The shortest text that reads back as the number. -/
def text (number : Binary64) : String :=
  if number.isNaN then "NaN"
  else
    let sign := if number.negative then "-" else ""
    if number.isInfinite then sign ++ "inf"
    else if number.isZero then sign ++ "0"
    else
      let (position, grid) := number.shortestDecimal
      sign ++ positionalText position grid

end Binary64

end Cascades
