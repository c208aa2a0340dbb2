import Cascades.Scalar.Equality
import Cascades.Scalar.Text
import Cascades.Text.Order

/-!
# Conjunctions

A condition is taken apart into its conjuncts, nested conjunctions included, and put together again
from a list of them. The canonical conjunction of a list has its conjuncts in the order of their
texts, and of neighbours that are the same only the first; conjuncts of equal text keep their order.
-/

namespace Cascades

namespace Scalar

mutual

/-- The parts of an expression that are joined by conjunctions only. -/
def conjuncts : Scalar → List Scalar
  | .and parts => conjunctsOf parts
  | scalar => [scalar]

/-- The conjuncts of all expressions of a list. -/
def conjunctsOf : List Scalar → List Scalar
  | [] => []
  | scalar :: rest => scalar.conjuncts ++ conjunctsOf rest

end

/-- The conjunction of a list: truth if it is empty, and its element if there is only one. -/
def conjunction : List Scalar → Scalar
  | [] => truth
  | [scalar] => scalar
  | scalars => .and scalars

/-- Adds an expression in front of those whose text does not come before its own. -/
def insertByText (scalar : Scalar) : List Scalar → List Scalar
  | [] => [scalar]
  | first :: rest =>
      if Text.le scalar.text first.text then scalar :: first :: rest
      else first :: insertByText scalar rest

/-- The expressions in the order of their texts. The sort is stable. -/
def sortByText (scalars : List Scalar) : List Scalar :=
  scalars.foldr insertByText []

/-- The list `first :: rest` without the elements that are the same as the one kept before them. -/
def dedupAfter (first : Scalar) : List Scalar → List Scalar
  | [] => [first]
  | second :: rest =>
      if first.same second then dedupAfter first rest
      else first :: dedupAfter second rest

/-- The list without the elements that repeat their neighbour. -/
def dedupAdjacent : List Scalar → List Scalar
  | [] => []
  | first :: rest => dedupAfter first rest

/-- The conjunction of a list in canonical order. -/
def canonicalConjunction (scalars : List Scalar) : Scalar :=
  conjunction (dedupAdjacent (sortByText scalars))

/-- The expression with its conjuncts in canonical order. -/
def canonical (scalar : Scalar) : Scalar :=
  canonicalConjunction scalar.conjuncts

/-- Whether an expression is the equality of two local columns. -/
def isEquality : Scalar → Bool
  | .binary .eq (.column _) (.column _) => true
  | _ => false

/-- Whether some conjunct is the equality of two local columns. -/
def hasEquality (scalar : Scalar) : Bool :=
  scalar.conjuncts.any isEquality

end Scalar

end Cascades
