import Cascades.Scalar.Equality

/-!
# Operators

An operator is one node of a query plan without its inputs. Logical operators say what is computed
and physical ones how; the implementations of a logical operator carry its payload unchanged.
-/

namespace Cascades

/--
The types of joins: on pairs of rows only, with the unmatched rows of one or of both inputs, on the rows
of the left input that have or lack a match, and on all pairs of rows.
-/
inductive JoinType where
  | inner | left | right | full | semi | anti | cross
deriving DecidableEq

/-- Whether the inputs of a join of this type may be exchanged. -/
def JoinType.isSymmetric : JoinType → Bool
  | .inner | .cross => true
  | _ => false

/-- The functions that sum up the rows of a group. -/
inductive AggregateFunction where
  | count | sum | avg | min | max
deriving DecidableEq

/-- An aggregate function applied to the values, or the distinct values, of an argument. -/
structure Aggregate where
  function : AggregateFunction
  argument : Scalar
  distinct : Bool
deriving DecidableEq

/-- An expression to sort by, the direction, and on which side of the values the nulls are put. -/
structure SortKey where
  scalar : Scalar
  ascending : Bool
  nullsFirst : Bool
deriving DecidableEq

/-- The input of a hash join that is loaded into the table. -/
inductive BuildSide where
  | left | right
deriving DecidableEq

/-- What is computed, with the conditions and columns that it depends on. -/
inductive LogicalOperator where
  | scan (table : TableRef) (columns : List ColumnRef) (predicate : Option Scalar)
  | filter (predicate : Scalar)
  | project (scalars : List Scalar) (aliases : List String)
  | join (type : JoinType) (condition : Scalar)
  | aggregate (keys : List Scalar) (aggregates : List Aggregate)
  | sort (order : List SortKey)
  | limit (offset count : UInt64)
deriving DecidableEq

/-- How it is computed. Joins and aggregations can be run by several algorithms. -/
inductive PhysicalOperator where
  | seqScan (table : TableRef) (columns : List ColumnRef) (predicate : Option Scalar)
  | filter (predicate : Scalar)
  | project (scalars : List Scalar) (aliases : List String)
  | hashJoin (type : JoinType) (build : BuildSide) (condition : Scalar)
  | mergeJoin (type : JoinType) (condition : Scalar)
  | nestedLoopJoin (type : JoinType) (condition : Scalar)
  | hashAggregate (keys : List Scalar) (aggregates : List Aggregate)
  | streamAggregate (keys : List Scalar) (aggregates : List Aggregate)
  | sort (order : List SortKey)
  | limit (offset count : UInt64)
deriving DecidableEq

/-- A logical or a physical operator. -/
inductive Operator where
  | logical (operator : LogicalOperator)
  | physical (operator : PhysicalOperator)
deriving DecidableEq

/-- The kinds of logical operators. -/
inductive LogicalKind where
  | scan | filter | project | join | aggregate | sort | limit
deriving DecidableEq

/-- The kinds of physical operators. -/
inductive PhysicalKind where
  | seqScan | filter | project | hashJoin | mergeJoin | nestedLoopJoin | hashAggregate
  | streamAggregate | sort | limit
deriving DecidableEq

/-- The kinds of logical and of physical operators. -/
inductive OperatorKind where
  | logical (kind : LogicalKind)
  | physical (kind : PhysicalKind)
deriving DecidableEq

/-- The kind of a logical operator, which patterns ask for. -/
def LogicalOperator.kind : LogicalOperator → LogicalKind
  | .scan .. => .scan
  | .filter .. => .filter
  | .project .. => .project
  | .join .. => .join
  | .aggregate .. => .aggregate
  | .sort .. => .sort
  | .limit .. => .limit

/-- The kind of a physical operator. -/
def PhysicalOperator.kind : PhysicalOperator → PhysicalKind
  | .seqScan .. => .seqScan
  | .filter .. => .filter
  | .project .. => .project
  | .hashJoin .. => .hashJoin
  | .mergeJoin .. => .mergeJoin
  | .nestedLoopJoin .. => .nestedLoopJoin
  | .hashAggregate .. => .hashAggregate
  | .streamAggregate .. => .streamAggregate
  | .sort .. => .sort
  | .limit .. => .limit

/--
The scalar expressions of a logical operator. The columns that a scan lists are not among them.
-/
def LogicalOperator.scalars : LogicalOperator → List Scalar
  | .scan _ _ predicate => predicate.toList
  | .filter predicate => [predicate]
  | .project scalars _ => scalars
  | .join _ condition => [condition]
  | .aggregate keys aggregates => keys ++ aggregates.map Aggregate.argument
  | .sort order => order.map SortKey.scalar
  | .limit .. => []

/-- The scalar expressions of a physical operator. -/
def PhysicalOperator.scalars : PhysicalOperator → List Scalar
  | .seqScan _ _ predicate => predicate.toList
  | .filter predicate => [predicate]
  | .project scalars _ => scalars
  | .hashJoin _ _ condition => [condition]
  | .mergeJoin _ condition => [condition]
  | .nestedLoopJoin _ condition => [condition]
  | .hashAggregate keys aggregates => keys ++ aggregates.map Aggregate.argument
  | .streamAggregate keys aggregates => keys ++ aggregates.map Aggregate.argument
  | .sort order => order.map SortKey.scalar
  | .limit .. => []

namespace Operator

/-- Whether the operator says what is computed. -/
def isLogical : Operator → Bool
  | .logical _ => true
  | .physical _ => false

/-- Whether the operator says how something is computed. -/
def isPhysical : Operator → Bool
  | .logical _ => false
  | .physical _ => true

/-- The kind of an operator. A logical and a physical operator never have the same kind. -/
def kind : Operator → OperatorKind
  | .logical operator => .logical operator.kind
  | .physical operator => .physical operator.kind

/-- The scalar expressions of an operator. -/
def scalars : Operator → List Scalar
  | .logical operator => operator.scalars
  | .physical operator => operator.scalars

/-- Whether a scalar expression of the operator has a column of an enclosing query. -/
def hasOuterRefs (operator : Operator) : Bool :=
  operator.scalars.any Scalar.hasOuterRefs

end Operator

end Cascades
