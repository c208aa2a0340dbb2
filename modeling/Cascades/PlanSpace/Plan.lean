import Cascades.Forest.Basic
import Cascades.Memo.Text

/-!
# Plans

A plan is a tree of stored expressions in which every input of an operator is filled by an
expression of the child group. Its text has a line for every operator, indented by its depth.
-/

namespace Cascades

/-- An operator with plans for its inputs. -/
inductive Plan where
  | node (group : GroupId) (expression : ExprId) (operator : Operator) (children : List Plan)

namespace Plan

mutual

/-- The number of operators. -/
def size : Plan → Nat
  | .node _ _ _ children => 1 + sizes children

/-- The number of operators of all plans of a list. -/
def sizes : List Plan → Nat
  | [] => 0
  | plan :: rest => plan.size + sizes rest

end

mutual

/-- The lines of a plan that stands at a depth. -/
def indented (depth : Nat) : Plan → String
  | .node group id operator children =>
      String.ofList (List.replicate (2 * depth) ' ') ++ operator.text ++ " [group " ++
        toString group ++ ", #" ++ toString id ++ "]\n" ++ indentedAll (depth + 1) children

/-- The lines of the plans of a list, one plan after the other. -/
def indentedAll (depth : Nat) : List Plan → String
  | [] => ""
  | plan :: rest => plan.indented depth ++ indentedAll depth rest

end

/-- The text of a plan. -/
def text (plan : Plan) : String :=
  plan.indented 0

end Plan

namespace Memo

mutual

/-- The plan that a tree of expression numbers stands for. -/
def planOf (memo : Memo) : Tree ExprId → Checked Plan
  | .node id children => do
      let expression ← memo.expression id
      let children ← plansOf memo children
      return .node expression.group expression.id expression.operator children

/-- The plans of the trees of a list. -/
def plansOf (memo : Memo) : List (Tree ExprId) → Checked (List Plan)
  | [] => return []
  | tree :: rest => do
      let plan ← memo.planOf tree
      let plans ← plansOf memo rest
      return plan :: plans

end

end Memo

end Cascades
