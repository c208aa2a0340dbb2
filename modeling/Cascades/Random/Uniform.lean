/-!
# Uniform numbers below a bound

A stream of 64-bit words gives numbers below a bound: a word is multiplied with the bound, and the
upper half of the product is the number. Words whose product has a lower half beyond the largest
multiple of the bound, shifted to the full width, are refused, so that all numbers are equally
likely. At least half of all words are accepted.
-/

namespace Cascades

namespace Uniform

/-- The largest accepted lower half of a product. -/
def zone (bound : Nat) : Nat :=
  bound * Nat.pow 2 (63 - bound.log2) - 1

/-- How many words are looked at before the last one is taken as it is. -/
def patience : Nat := 4096

/-- The number that the stream gives from a position on, and the position after it. -/
def draw (words : Nat → UInt64) (bound : Nat) : (attempts : Nat) → Nat → Nat × Nat
  | 0, position => ((words position).toNat * bound / UInt64.size, position + 1)
  | attempts + 1, position =>
      let product := (words position).toNat * bound
      if product % UInt64.size ≤ zone bound then (product / UInt64.size, position + 1)
      else draw words bound attempts (position + 1)

/-- Several numbers, one after the other. -/
def drawMany (words : Nat → UInt64) (bound : Nat) : (size : Nat) → Nat → List Nat
  | 0, _ => []
  | size + 1, position =>
      let (number, position) := draw words bound patience position
      number :: drawMany words bound size position

end Uniform

end Cascades
