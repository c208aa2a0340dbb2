import Cascades.Forest.Rank
import Cascades.Memo.Reach
import Cascades.PlanSpace.Plan
import Cascades.Random.Uniform

/-!
# Plan spaces

The plans of one kind below a root group, as a forest: its values are the expressions of that kind,
and the slots of an expression are its children, each listing the expressions of the child group.
Only groups that the root group reaches through expressions of the kind are part of it.
-/

namespace Cascades

/-- Which expressions make up the plans. -/
inductive PlanKind where
  | physical | logical
deriving DecidableEq

/-- The expressions of a group that belong to plans of a kind. -/
def PlanKind.expressions (kind : PlanKind) (group : Group) : List ExprId :=
  match kind with
  | .physical => group.physical
  | .logical => group.logical

/-- The plans of one kind below a group. -/
abbrev PlanSpace := Forest ExprId

namespace PlanSpace

/-- Lists expressions in a slot of an expression, up to the first that may not be listed there. -/
def addAlternatives (space : PlanSpace) (id : ExprId) (slot : Nat) :
    List ExprId → Except Failure PlanSpace
  | [] => .ok space
  | alternative :: rest => do
      let space ← space.insertEdge id slot alternative
      addAlternatives space id slot rest

/-- Fills the slots of an expression from its child groups. -/
def addChildren (memo : Memo) (kind : PlanKind) (space : PlanSpace) (id : ExprId) (slot : Nat) :
    List GroupId → Except Failure PlanSpace
  | [] => .ok space
  | child :: rest =>
      match memo.group? child with
      | none => .error (.corrupted (.unknownChild id child))
      | some group => do
          let space ← space.addAlternatives id slot (kind.expressions group)
          addChildren memo kind space id (slot + 1) rest

/-- Adds expressions with their slots. -/
def addExpressions (memo : Memo) (kind : PlanKind) (space : PlanSpace) :
    List Expression → Except Failure PlanSpace
  | [] => .ok space
  | expression :: rest => do
      let space := space.insertNode expression.id expression.children.length
      let space ← addChildren memo kind space expression.id 0 expression.children
      addExpressions memo kind space rest

/-- Adds the expressions of groups. -/
def addGroups (memo : Memo) (kind : PlanKind) (space : PlanSpace) :
    List GroupId → Checked (Except Failure PlanSpace)
  | [] => return .ok space
  | id :: rest => do
      let group ← memo.group id
      let expressions ← memo.expressionsOf (kind.expressions group)
      match addExpressions memo kind space expressions with
      | .error failure => return .error failure
      | .ok space => addGroups memo kind space rest

/-- The groups below a group through expressions of a kind. -/
def successors (memo : Memo) (kind : PlanKind) (id : GroupId) : List GroupId :=
  match memo.group? id with
  | some group => memo.childrenOf (kind.expressions group)
  | none => []

/-- The plans of a kind below a root group. -/
def build (memo : Memo) (root : GroupId) (kind : PlanKind) :
    Checked (Except Failure PlanSpace) :=
  match memo.group? root with
  | none => return .error (.corrupted (.unknownRoot root))
  | some group =>
      let rooted : PlanSpace := (kind.expressions group).foldl Forest.insertRoot Forest.empty
      let order := Traversal.breadthFirst memo.groups.size (successors memo kind) root
      addGroups memo kind rooted order

/--
Trees whose ranks are drawn from a stream of words, from its beginning. If there are no trees, there
is nothing to draw.
-/
def sample (space : PlanSpace) (words : Nat → UInt64) (size : Nat) :
    PlanSpace × Except Failure (List (Tree ExprId)) :=
  match space.treeCount with
  | (space, .error failure) => (space, .error failure)
  | (space, .ok 0) => (space, .ok [])
  | (space, .ok count) => space.unrankEach (Uniform.drawMany words count size 0)

end PlanSpace

end Cascades
