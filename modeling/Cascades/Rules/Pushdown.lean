import Cascades.Rules.JoinOrder

/-!
# Pushing filters and projections down

A filter over an inner or a cross join becomes an inner join that carries the predicate as well. A
projection over a scan becomes the same projection over a scan of only the columns it uses. Both are
added as alternatives of the expression they replace.
-/

namespace Cascades

namespace Rules

/-- The conjuncts of a join condition and of a predicate, a literal truth in the former excepted. -/
def mergeConditions (condition predicate : Scalar) : Scalar :=
  .canonicalConjunction
    (condition.conjuncts.filter (fun conjunct => !conjunct.same .truth) ++ predicate.conjuncts)

/-- A join with an additional predicate, if its type admits one. -/
def filterJoin (predicate : Scalar) (expression : Expression) : Option RuleResult :=
  match expression.join? with
  | some (type, condition, left, right) =>
      if type.isSymmetric then
        some (.substitution (.logical (.join .inner (mergeConditions condition predicate)))
          [left, right])
      else none
  | none => none

/-- The joins of the input of a filter, with the predicate of the filter. -/
def pushPredicate (expression : Expression) (memo : Memo) : Checked (List RuleResult) :=
  match expression.operator, expression.children with
  | .logical (.filter predicate), input :: _ => do
      let inputs ← memo.logicalOf input
      return inputs.filterMap (filterJoin predicate)
  | _, _ => return []

/-- `Filter(p, A ⋈ B)` to `A ⋈ B` with `p` among its conjuncts. -/
def predicatePushdown : Rule where
  name := "PredicatePushdown"
  kind := .transformation
  pattern := .filterOverJoin
  incompatible := []
  promise := fun expression _ _ =>
    match expression.operator with
    | .logical (.filter predicate) => .ok (if predicate.hasOuterRefs then .none else .high)
    | _ => .ok .none
  apply := fun expression memo _ => do
    return .results (← pushPredicate expression memo)

/-- Whether two columns agree in table and name. -/
def sameColumn (left right : ColumnRef) : Bool :=
  left.table == right.table && left.name == right.name

/-- The columns without those that agree with an earlier one. -/
def distinctColumns (columns : List ColumnRef) : List ColumnRef :=
  columns.foldl (fun kept column =>
    if kept.any (sameColumn column) then kept else kept ++ [column]) []

/-- The columns that a list of scalar expressions uses, in the order of their first use. -/
def neededColumns (scalars : List Scalar) : List ColumnRef :=
  distinctColumns (scalars.flatMap Scalar.columns)

/-- Whether a scan is not known to read only columns of the needed names. -/
def isPrunable (catalog : Catalog) (needed : List ColumnRef) (expression : Expression) : Bool :=
  match expression.operator with
  | .logical (.scan table _ _) =>
      match catalog.columns? table with
      | some columns => columns.any fun column => !needed.any (·.name == column.name)
      | none => true
  | _ => false

/-- A projection over a scan of only the needed columns, if that differs from the given scan. -/
def projectScan (projection : Operator) (needed : List ColumnRef) (expression : Expression) :
    Option RuleResult :=
  match expression.operator with
  | .logical (.scan table columns predicate) =>
      if columns = needed then none
      else some (.nested projection [.fresh (.logical (.scan table needed predicate)) []])
  | _ => none

/-- The projection over those scans of its input that have other columns than it needs. -/
def pushProjection (expression : Expression) (memo : Memo) : Checked (List RuleResult) :=
  match expression.operator, expression.children with
  | .logical (.project scalars _), input :: _ => do
      let needed := neededColumns scalars
      if needed.isEmpty then return []
      let inputs ← memo.logicalOf input
      return inputs.filterMap (projectScan expression.operator needed)
  | _, _ => return []

/-- `Project(Scan)` to the same projection over a scan of the columns that it uses. -/
def projectionPushdown : Rule where
  name := "ProjectionPushdown"
  kind := .transformation
  pattern := .projectOverScan
  incompatible := []
  promise := fun expression memo catalog =>
    match expression.operator, expression.children with
    | .logical (.project scalars _), input :: _ => do
        let needed := neededColumns scalars
        if needed.isEmpty then return .none
        let inputs ← memo.logicalOf input
        return if inputs.any (isPrunable catalog needed) then .medium else .none
    | _, _ => return .none
  apply := fun expression memo _ => do
    return .results (← pushProjection expression memo)

end Rules

end Cascades
