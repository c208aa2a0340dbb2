import Cascades.Memo.Basic
import Cascades.Operator.Text

/-!
# Text of the memo

Every group is shown on a line with its flags, followed by a line for each of its expressions.
-/

namespace Cascades

/-- A list of numbers, separated by commas, in brackets. -/
def numbersText (numbers : List Nat) : String :=
  "[" ++ ", ".intercalate (numbers.map toString) ++ "]"

/-- The word for a truth value. -/
def flagText (flag : Bool) : String :=
  if flag then "true" else "false"

namespace Expression

/-- The line of an expression. -/
def line (expression : Expression) : String :=
  "  #" ++ toString expression.id ++ " " ++ expression.operator.text ++ " " ++
    numbersText expression.children ++ "\n"

end Expression

namespace Memo

/-- The lines of a group. -/
def groupText (memo : Memo) (id : GroupId) (group : Group) : String :=
  "group " ++ toString id ++ " (explored=" ++ flagText group.explored ++ ", implemented=" ++
    flagText group.implemented ++ ")\n" ++
    String.join (group.expressions.filterMap fun id => (memo.expression? id).map Expression.line)

/-- The text of all groups in the order of their numbers. -/
def text (memo : Memo) : String :=
  String.join (memo.groups.toList.mapIdx fun id group => memo.groupText id group)

end Memo

end Cascades
