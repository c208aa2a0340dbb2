import Cascades.Memo.Reach
import Cascades.Rule.Basic

/-!
# Join reordering

Commutativity exchanges the inputs of an inner or a cross join. Associativity turns
`(A ⋈ B) ⋈ C` into `A ⋈ (B ⋈ C)` and into `B ⋈ (A ⋈ C)`, for inner joins only. The outer conjuncts
that connect the moved input with `C`, and mention no other table, go to the new inner join; without
such a conjunct the new join would be a cross product and is not formed. All other conjuncts stay on
the new outer join.
-/

namespace Cascades

namespace Expression

/-- The inputs of a join of two inputs, with its type and its condition. -/
def join? (expression : Expression) : Option (JoinType × Scalar × GroupId × GroupId) :=
  match expression.operator, expression.children with
  | .logical (.join type condition), [left, right] => some (type, condition, left, right)
  | _, _ => none

/-- The inputs and the condition of an inner join without outer columns. -/
def localInnerJoin? (expression : Expression) : Option (Scalar × GroupId × GroupId) :=
  match expression.join? with
  | some (.inner, condition, left, right) =>
      if condition.hasOuterRefs then none else some (condition, left, right)
  | _ => none

end Expression

namespace Memo

/-- The groups in which the tables below a group are looked for: scans have none. -/
def tableSuccessors (memo : Memo) (id : GroupId) : List GroupId :=
  match memo.group? id with
  | some group =>
      group.logical.flatMap fun id =>
        match memo.expression? id with
        | some ⟨_, _, .logical (.scan ..), _, _, _⟩ => []
        | some expression => expression.children
        | none => []
  | none => []

/-- The tables scanned by the logical expressions among the given ones. -/
def scannedBy (memo : Memo) (ids : List ExprId) : List TableRef :=
  ids.filterMap fun id =>
    match memo.expression? id with
    | some ⟨_, _, .logical (.scan table _ _), _, _, _⟩ => some table
    | _ => none

/-- The names of the tables that are scanned below a group. All groups below it must exist. -/
def tableNames (memo : Memo) (id : GroupId) : Checked (List String) := do
  let below := Traversal.breadthFirst memo.groups.size memo.tableSuccessors id
  let groups ← below.mapM memo.group
  return groups.flatMap fun group => (memo.scannedBy group.logical).map TableRef.name

end Memo

namespace Rules

/-- The join with its inputs exchanged, if its type allows it. -/
def commuteJoin (expression : Expression) : List RuleResult :=
  match expression.join? with
  | some (type, condition, left, right) =>
      if type.isSymmetric then
        [.substitution (.logical (.join type condition)) [right, left]]
      else []
  | none => []

/-- `A ⋈ B` to `B ⋈ A`, for inner and cross joins. Its own results are not turned back. -/
def joinCommutativity : Rule where
  name := "JoinCommutativity"
  kind := .transformation
  pattern := .join
  incompatible := ["JoinCommutativity"]
  promise := fun expression _ _ =>
    match expression.operator with
    | .logical (.join type _) => .ok (if type.isSymmetric then .medium else .none)
    | _ => .ok .none
  apply := fun expression _ _ => .ok (.results (commuteJoin expression))

/-- Whether a conjunct connects the tables of two inputs and mentions no others. -/
def connects (moved last : List String) (conjunct : Scalar) : Bool :=
  let tables := conjunct.tables
  tables.all (fun table => moved.contains table || last.contains table) &&
    tables.any moved.contains && tables.any last.contains

/-- `(stay ⋈ moved) ⋈ last` to `stay ⋈ (moved ⋈ last)`, if some outer conjunct can move. -/
def reassociate (outer inner : Scalar) (stay moved last : GroupId)
    (movedTables lastTables : List String) : List RuleResult :=
  let (pushed, kept) := outer.conjuncts.partition (connects movedTables lastTables)
  if pushed.isEmpty then []
  else
    let newInner := Scalar.canonicalConjunction pushed
    let newOuter := Scalar.canonicalConjunction (inner.conjuncts ++ kept)
    [.nested (.logical (.join .inner newOuter))
      [.group stay, .fresh (.logical (.join .inner newInner)) [.group moved, .group last]]]

/-- Both reassociations of a join over one inner join of its left input. -/
def reassociateOver (memo : Memo) (outer : Scalar) (last : GroupId) (lastTables : List String)
    (inner : Scalar × GroupId × GroupId) : Checked (List RuleResult) := do
  let (condition, left, right) := inner
  let leftTables ← memo.tableNames left
  let rightTables ← memo.tableNames right
  return reassociate outer condition left right last rightTables lastTables ++
    reassociate outer condition right left last leftTables lastTables

/-- The joins that an inner join over an inner join is turned into, for each inner join of its first input. -/
def associateJoin (expression : Expression) (memo : Memo) : Checked (List RuleResult) :=
  match expression.join? with
  | some (.inner, outer, first, last) => do
      let lastTables ← memo.tableNames last
      let inputs ← memo.logicalOf first
      let results ← (inputs.filterMap Expression.localInnerJoin?).mapM
        (reassociateOver memo outer last lastTables)
      return results.flatten
  | _ => return []

/-- `(A ⋈ B) ⋈ C` to `A ⋈ (B ⋈ C)` and to `B ⋈ (A ⋈ C)`, for inner joins. -/
def joinAssociativity : Rule where
  name := "JoinAssociativity"
  kind := .transformation
  pattern := .joinOverJoin
  incompatible := []
  promise := fun expression memo _ =>
    match expression.localInnerJoin? with
    | some (_, left, _) => do
        let inputs ← memo.logicalOf left
        return if inputs.any (·.localInnerJoin?.isSome) then .medium else .none
    | none => return .none
  apply := fun expression memo _ => do
    return .results (← associateJoin expression memo)

end Rules

end Cascades
