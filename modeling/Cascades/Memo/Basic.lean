import Cascades.Operator.Canonical
import Cascades.RuleSet

/-!
# The memo

The memo is the search graph. Its groups are classes of expressions that compute the same result; an
expression is an operator whose inputs are groups, so that it stands for every choice of an
expression in each of them. Groups and expressions are never removed and are numbered in the order
of their insertion.

An expression may name a group that does not exist, and callers may ask for one; such a dangling
reference is reported where it is followed.
-/

namespace Cascades

/-- The number of a group. -/
abbrev GroupId := Nat

/-- The number of an expression. -/
abbrev ExprId := Nat

/-- A reference to something that the memo does not hold. -/
inductive Dangling where
  | group (id : GroupId)
  | expression (id : ExprId)
deriving DecidableEq

/-- A result, unless a dangling reference had to be followed. -/
abbrev Checked (α : Type) := Except Dangling α

/-- What a group is driven to: all its logical alternatives found, or also implemented. -/
inductive Goal where
  | explore | implement
deriving DecidableEq

/--
An operator over child groups. The origin is the rule that produced the expression, if one did, and
`applied` holds the rules that have been applied to it.
-/
structure Expression where
  id : ExprId
  group : GroupId
  operator : Operator
  children : List GroupId
  origin : Option RuleId
  applied : RuleSet

/-- A class of equivalent expressions, the logical and the physical ones each in insertion order. -/
structure Group where
  logical : List ExprId
  physical : List ExprId
  explored : Bool
  implemented : Bool
deriving DecidableEq

namespace Group

/-- A group without expressions, in which nothing has been done. -/
def empty : Group := ⟨[], [], false, false⟩

/-- The logical expressions, then the physical ones. -/
def expressions (group : Group) : List ExprId :=
  group.logical ++ group.physical

/-- Appends an expression to the logical or to the physical ones. -/
def push (group : Group) (id : ExprId) (logical : Bool) : Group :=
  if logical then { group with logical := group.logical ++ [id] }
  else { group with physical := group.physical ++ [id] }

/-- Whether the group has been driven to a goal. -/
def reached (group : Group) : Goal → Bool
  | .explore => group.explored
  | .implement => group.implemented

/-- Records that the group has been driven to a goal. -/
def mark (group : Group) : Goal → Group
  | .explore => { group with explored := true }
  | .implement => { group with implemented := true }

end Group

/-- The search graph. -/
structure Memo where
  groups : Array Group
  expressions : Array Expression

namespace Memo

/-- The memo without groups. -/
def empty : Memo := ⟨#[], #[]⟩

/-- The group of a number, if there is one. -/
def group? (memo : Memo) (id : GroupId) : Option Group :=
  memo.groups[id]?

/-- The expression of a number, if there is one. -/
def expression? (memo : Memo) (id : ExprId) : Option Expression :=
  memo.expressions[id]?

/-- The group of a number that is expected to exist. -/
def group (memo : Memo) (id : GroupId) : Checked Group :=
  match memo.group? id with
  | some group => .ok group
  | none => .error (.group id)

/-- The expression of a number that is expected to exist. -/
def expression (memo : Memo) (id : ExprId) : Checked Expression :=
  match memo.expression? id with
  | some expression => .ok expression
  | none => .error (.expression id)

/-- Whether a group exists. -/
def holdsGroup (memo : Memo) (id : GroupId) : Bool :=
  decide (id < memo.groups.size)

/-- The expressions of a list of numbers. -/
def expressionsOf (memo : Memo) (ids : List ExprId) : Checked (List Expression) :=
  ids.mapM memo.expression

/-- The logical expressions of a group. -/
def logicalOf (memo : Memo) (id : GroupId) : Checked (List Expression) := do
  let group ← memo.group id
  memo.expressionsOf group.logical

/--
Marks a group as driven to a goal if it holds no more logical expressions than have been seen, and
tells whether it does.
-/
def sealGroup (memo : Memo) (id : GroupId) (goal : Goal) (seen : Nat) : Checked (Memo × Bool) := do
  let group ← memo.group id
  if seen < group.logical.length then return (memo, false)
  return ({ memo with groups := memo.groups.setIfInBounds id (group.mark goal) }, true)

/-- Whether a rule has been applied to an expression. -/
def isApplied (memo : Memo) (id : ExprId) (rule : RuleId) : Checked Bool := do
  let expression ← memo.expression id
  return expression.applied.contains rule

/-- Records that a rule has been applied to an expression, and tells whether that is new. -/
def markApplied (memo : Memo) (id : ExprId) (rule : RuleId) : Checked (Memo × Bool) := do
  let expression ← memo.expression id
  let marked := { expression with applied := expression.applied.insert rule }
  return ({ memo with expressions := memo.expressions.setIfInBounds id marked },
    !expression.applied.contains rule)

end Memo

end Cascades
