import Cascades.Memo.Basic
import Cascades.Traversal

/-!
# Groups below a group

A group reaches another through the children of its expressions.
-/

namespace Cascades

namespace Memo

/-- The children of the stored expressions among the given ones, in order. -/
def childrenOf (memo : Memo) (ids : List ExprId) : List GroupId :=
  ids.flatMap fun id =>
    match memo.expression? id with
    | some expression => expression.children
    | none => []

/-- The groups below a group in one step. A group that does not exist has none. -/
def successors (memo : Memo) (id : GroupId) : List GroupId :=
  match memo.group? id with
  | some group => memo.childrenOf group.expressions
  | none => []

/-- The groups that a group reaches, itself first, in breadth-first order. All must exist. -/
def reachableGroups (memo : Memo) (root : GroupId) : Checked (List GroupId) :=
  let order := Traversal.breadthFirst memo.groups.size memo.successors root
  match order.find? fun id => !memo.holdsGroup id with
  | some id => .error (.group id)
  | none => .ok order

end Memo

end Cascades
