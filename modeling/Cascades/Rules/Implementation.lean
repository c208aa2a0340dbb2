import Cascades.Rules.JoinOrder

/-!
# Implementations

Every logical operator has a physical counterpart for each algorithm that can run it. An
implementation keeps the payload and the inputs of the logical expression. Hash joins need an
equality of columns or a cross join, and merge joins an inner join with an equality; a nested-loop
join runs any join.
-/

namespace Cascades

namespace Rules

/-- Physical expressions over the inputs of a logical one. -/
def implementAs (expression : Expression) (operators : List PhysicalOperator) : List RuleResult :=
  operators.map fun operator => .substitution (.physical operator) expression.children

/-- Whether a hash join can run a join of the type and condition. -/
def canHash (type : JoinType) (condition : Scalar) : Bool :=
  condition.hasEquality || type == .cross

/-- Whether a merge join can run a join of the type and condition. -/
def canMerge (type : JoinType) (condition : Scalar) : Bool :=
  condition.hasEquality && type == .inner

/-- A hash join, with the right and with the left input as build side. -/
def hashJoin : Rule where
  name := "ImplHashJoin"
  kind := .implementation
  pattern := .join
  incompatible := []
  promise := fun expression _ _ =>
    match expression.join? with
    | some (type, condition, _, _) =>
        .ok (if condition.hasEquality then .high else if type = .cross then .medium else .none)
    | none => .ok .none
  apply := fun expression _ _ =>
    match expression.join? with
    | some (type, condition, _, _) =>
        .ok (.results (if canHash type condition then
          implementAs expression [.hashJoin type .right condition, .hashJoin type .left condition]
        else []))
    | none => .ok (.results [])

/-- A merge join, for inner joins with an equality. -/
def mergeJoin : Rule where
  name := "ImplMergeJoin"
  kind := .implementation
  pattern := .join
  incompatible := []
  promise := fun expression _ _ =>
    match expression.join? with
    | some (type, condition, _, _) => .ok (if canMerge type condition then .low else .none)
    | none => .ok .none
  apply := fun expression _ _ =>
    match expression.join? with
    | some (type, condition, _, _) =>
        .ok (.results (if canMerge type condition then
          implementAs expression [.mergeJoin .inner condition]
        else []))
    | none => .ok (.results [])

/-- A nested-loop join, which runs every join but promises less where there is an equality. -/
def nestedLoopJoin : Rule where
  name := "ImplNestedLoopJoin"
  kind := .implementation
  pattern := .join
  incompatible := []
  promise := fun expression _ _ =>
    match expression.join? with
    | some (_, condition, _, _) => .ok (if condition.hasEquality then .low else .medium)
    | none => .ok .none
  apply := fun expression _ _ =>
    match expression.join? with
    | some (type, condition, _, _) =>
        .ok (.results (implementAs expression [.nestedLoopJoin type condition]))
    | none => .ok (.results [])

/-- A scan that reads the whole table. -/
def seqScan : Rule where
  name := "ImplSeqScan"
  kind := .implementation
  pattern := .scan
  incompatible := []
  promise := Rule.defaultPromise
  apply := fun expression _ _ =>
    match expression.operator with
    | .logical (.scan table columns predicate) =>
        .ok (.results [.substitution (.physical (.seqScan table columns predicate)) []])
    | _ => .ok (.results [])

/-- A rule that implements the logical operators of one kind and one input. -/
def unary (name : String) (kind : LogicalKind)
    (implement : LogicalOperator → List PhysicalOperator) : Rule where
  name := name
  kind := .implementation
  pattern := .logical kind 1
  incompatible := []
  promise := Rule.defaultPromise
  apply := fun expression _ _ =>
    match expression.operator with
    | .logical operator => .ok (.results (implementAs expression (implement operator)))
    | .physical _ => .ok (.results [])

/-- An aggregation that collects the groups in a table. -/
def hashAggregate : Rule :=
  unary "ImplHashAggregate" .aggregate fun
    | .aggregate keys aggregates => [.hashAggregate keys aggregates]
    | _ => []

/-- An aggregation that takes the rows of a group as they come. -/
def streamAggregate : Rule :=
  unary "ImplStreamAggregate" .aggregate fun
    | .aggregate keys aggregates => [.streamAggregate keys aggregates]
    | _ => []

/-- A sort by the same keys. -/
def sort : Rule :=
  unary "ImplSort" .sort fun
    | .sort order => [.sort order]
    | _ => []

/-- A filter by the same predicate. -/
def filter : Rule :=
  unary "ImplFilter" .filter fun
    | .filter predicate => [.filter predicate]
    | _ => []

/-- A projection to the same expressions. -/
def project : Rule :=
  unary "ImplProject" .project fun
    | .project scalars aliases => [.project scalars aliases]
    | _ => []

/-- A limit to the same rows. -/
def limit : Rule :=
  unary "ImplLimit" .limit fun
    | .limit offset count => [.limit offset count]
    | _ => []

end Rules

end Cascades
