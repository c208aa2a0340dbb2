import Cascades.Operator.Basic
import Cascades.Scalar.Conjunction

/-!
# Equality and canonical form of operators

Operators are the same if they differ at most in the bits of equal numbers. The canonical form of an
operator has the conjuncts of its join condition, if it is a join, in canonical order; conditions of
other operators stay as they are.
-/

namespace Cascades

/-- The aggregate with the representative of its argument. -/
def Aggregate.normal (aggregate : Aggregate) : Aggregate :=
  { aggregate with argument := aggregate.argument.normal }

/-- The key with the representative of its expression. -/
def SortKey.normal (key : SortKey) : SortKey :=
  { key with scalar := key.scalar.normal }

/-- The operator with the representatives of its scalar expressions. -/
def LogicalOperator.normal : LogicalOperator → LogicalOperator
  | .scan table columns predicate => .scan table columns (predicate.map Scalar.normal)
  | .filter predicate => .filter predicate.normal
  | .project scalars aliases => .project (scalars.map Scalar.normal) aliases
  | .join type condition => .join type condition.normal
  | .aggregate keys aggregates =>
      .aggregate (keys.map Scalar.normal) (aggregates.map Aggregate.normal)
  | .sort order => .sort (order.map SortKey.normal)
  | .limit offset count => .limit offset count

/-- The operator with the representatives of its scalar expressions. -/
def PhysicalOperator.normal : PhysicalOperator → PhysicalOperator
  | .seqScan table columns predicate => .seqScan table columns (predicate.map Scalar.normal)
  | .filter predicate => .filter predicate.normal
  | .project scalars aliases => .project (scalars.map Scalar.normal) aliases
  | .hashJoin type build condition => .hashJoin type build condition.normal
  | .mergeJoin type condition => .mergeJoin type condition.normal
  | .nestedLoopJoin type condition => .nestedLoopJoin type condition.normal
  | .hashAggregate keys aggregates =>
      .hashAggregate (keys.map Scalar.normal) (aggregates.map Aggregate.normal)
  | .streamAggregate keys aggregates =>
      .streamAggregate (keys.map Scalar.normal) (aggregates.map Aggregate.normal)
  | .sort order => .sort (order.map SortKey.normal)
  | .limit offset count => .limit offset count

/-- The operator with its condition in canonical order, if it is a join. -/
def LogicalOperator.canonical : LogicalOperator → LogicalOperator
  | .join type condition => .join type condition.canonical
  | operator => operator

/-- The operator with its condition in canonical order, if it is a join. -/
def PhysicalOperator.canonical : PhysicalOperator → PhysicalOperator
  | .hashJoin type build condition => .hashJoin type build condition.canonical
  | .mergeJoin type condition => .mergeJoin type condition.canonical
  | .nestedLoopJoin type condition => .nestedLoopJoin type condition.canonical
  | operator => operator

namespace Operator

/-- The representative of all operators that are the same. -/
def normal : Operator → Operator
  | .logical operator => .logical operator.normal
  | .physical operator => .physical operator.normal

/-- Whether two operators are the same up to the bits of equal numbers. -/
def same (left right : Operator) : Bool :=
  decide (left.normal = right.normal)

/-- The operator with its join condition, if it has one, in canonical order. -/
def canonical : Operator → Operator
  | .logical operator => .logical operator.canonical
  | .physical operator => .physical operator.canonical

theorem same_iff {left right : Operator} : left.same right = true ↔ left.normal = right.normal := by
  simp [same]

@[simp]
theorem same_self (operator : Operator) : operator.same operator = true := by
  simp [same]

@[simp]
theorem isLogical_canonical (operator : Operator) :
    operator.canonical.isLogical = operator.isLogical := by
  cases operator <;> rfl

@[simp]
theorem kind_canonical (operator : Operator) : operator.canonical.kind = operator.kind := by
  cases operator with
  | logical operator => cases operator <;> rfl
  | physical operator => cases operator <;> rfl

end Operator

end Cascades
