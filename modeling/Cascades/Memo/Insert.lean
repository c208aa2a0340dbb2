import Cascades.Memo.Basic

/-!
# Insertion into the memo

Operators are stored in canonical form, and no shape, an operator with its child groups, is stored
twice: inserting a known shape finds the stored expression and changes nothing, in whatever group it
lives.
-/

namespace Cascades

/-- The outcome of inserting an expression into a given group. -/
inductive Insertion where
  /-- The expression is new. -/
  | added (id : ExprId)
  /-- The group already holds the expression. -/
  | duplicate (id : ExprId)
  /-- Another group already holds the expression. -/
  | elsewhere (id : ExprId) (group : GroupId)
deriving DecidableEq

namespace Insertion

/-- The inserted or found expression. -/
def expression : Insertion → ExprId
  | .added id => id
  | .duplicate id => id
  | .elsewhere id _ => id

/-- Whether an insertion has stored an expression. -/
def isNew : Insertion → Bool
  | .added _ => true
  | _ => false

end Insertion

namespace Memo

/-- The stored expression of a shape. -/
def find? (memo : Memo) (operator : Operator) (children : List GroupId) : Option Expression :=
  memo.expressions.find? fun expression =>
    expression.children == children && expression.operator.same operator

/-- Stores a new expression in an existing group. -/
def push (memo : Memo) (group : GroupId) (operator : Operator) (children : List GroupId)
    (origin : Option RuleId) : Memo where
  groups := memo.groups.modify group (·.push memo.expressions.size operator.isLogical)
  expressions :=
    memo.expressions.push ⟨memo.expressions.size, group, operator, children, origin, .empty⟩

/-- Finds a shape, or stores it in a group of its own. -/
def add (memo : Memo) (operator : Operator) (children : List GroupId) (origin : Option RuleId) :
    Memo × GroupId × ExprId :=
  match memo.find? operator.canonical children with
  | some expression => (memo, expression.group, expression.id)
  | none =>
      let group := memo.groups.size
      let opened := { memo with groups := memo.groups.push .empty }
      (opened.push group operator.canonical children origin, group, memo.expressions.size)

/-- Finds a shape, or stores it in the given group. -/
def addTo (memo : Memo) (group : GroupId) (operator : Operator) (children : List GroupId)
    (origin : Option RuleId) : Checked (Memo × Insertion) :=
  match memo.find? operator.canonical children with
  | some expression =>
      if expression.group = group then .ok (memo, .duplicate expression.id)
      else .ok (memo, .elsewhere expression.id expression.group)
  | none =>
      if memo.holdsGroup group then
        .ok (memo.push group operator.canonical children origin, .added memo.expressions.size)
      else .error (.group group)

end Memo

end Cascades
