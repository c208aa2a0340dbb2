import Cascades.Memo.Basic

/-!
# Patterns

A pattern describes the upper part of an operator tree. It matches an expression whose operator and
number of children fit its top and whose every child group holds an expression that the
corresponding part matches; a part that matches anything is not compared with a group at all.
-/

namespace Cascades

/-- What a pattern asks of an operator. -/
inductive OperatorMatcher where
  | exactly (kind : OperatorKind)
  | anyLogical
  | anyPhysical
deriving DecidableEq

/-- Whether an operator is among those that a pattern allows in a place. -/
def OperatorMatcher.accepts (matcher : OperatorMatcher) (operator : Operator) : Bool :=
  match matcher with
  | .exactly kind => operator.kind == kind
  | .anyLogical => operator.isLogical
  | .anyPhysical => operator.isPhysical

/-- A shape of operator trees. -/
inductive Pattern where
  /-- Any expression. -/
  | any
  /-- An expression without children. -/
  | leaf
  /-- An expression whose operator fits and whose child groups fit the patterns one by one. -/
  | node (matcher : OperatorMatcher) (children : List Pattern)

namespace Pattern

/-- A logical operator of a kind over a number of arbitrary inputs. -/
def logical (kind : LogicalKind) (arity : Nat) : Pattern :=
  .node (.exactly (.logical kind)) (List.replicate arity .any)

/-- A logical join of any two inputs. -/
def join : Pattern := logical .join 2

/-- A join whose left input is a join. -/
def joinOverJoin : Pattern :=
  .node (.exactly (.logical .join)) [join, .any]

/-- A logical scan. -/
def scan : Pattern := logical .scan 0

/-- A filter over a join. -/
def filterOverJoin : Pattern :=
  .node (.exactly (.logical .filter)) [join]

/-- A projection over a scan. -/
def projectOverScan : Pattern :=
  .node (.exactly (.logical .project)) [scan]

mutual

/-- Whether an expression fits a pattern. -/
def fits (memo : Memo) : Pattern → ExprId → Checked Bool
  | .any, id => do
      let _ ← memo.expression id
      return true
  | .leaf, id => do
      let expression ← memo.expression id
      return expression.children.isEmpty
  | .node matcher children, id => do
      let expression ← memo.expression id
      if !matcher.accepts expression.operator then return false
      if expression.children.length ≠ children.length then return false
      fitsAll memo children expression.children

/-- Whether each group holds an expression that fits its pattern. -/
def fitsAll (memo : Memo) : List Pattern → List GroupId → Checked Bool
  | [], _ => return true
  | _ :: _, [] => return true
  | .any :: patterns, _ :: groups => fitsAll memo patterns groups
  | pattern :: patterns, id :: groups => do
      let group ← memo.group id
      if ← group.expressions.anyM (fits memo pattern) then fitsAll memo patterns groups
      else return false

end

end Pattern

end Cascades
