import Cascades.Operator.Basic
import Cascades.Scalar.Text

/-!
# Text of operators

Scans show their table, filters and joins their condition, limits their bounds, and the other
operators only how many expressions they hold.
-/

namespace Cascades

/-- The name of a join type. -/
def JoinType.text : JoinType → String
  | .inner => "Inner"
  | .left => "Left"
  | .right => "Right"
  | .full => "Full"
  | .semi => "Semi"
  | .anti => "Anti"
  | .cross => "Cross"

/-- The name of the input that is loaded. -/
def BuildSide.text : BuildSide → String
  | .left => "Left"
  | .right => "Right"

/-- The name of a kind of logical operators. -/
def LogicalKind.text : LogicalKind → String
  | .scan => "Scan"
  | .filter => "Filter"
  | .project => "Project"
  | .join => "Join"
  | .aggregate => "Aggregate"
  | .sort => "Sort"
  | .limit => "Limit"

/-- The name of a kind of physical operators. -/
def PhysicalKind.text : PhysicalKind → String
  | .seqScan => "SeqScan"
  | .filter => "Filter"
  | .project => "Project"
  | .hashJoin => "HashJoin"
  | .mergeJoin => "MergeJoin"
  | .nestedLoopJoin => "NestedLoopJoin"
  | .hashAggregate => "HashAggregate"
  | .streamAggregate => "StreamAggregate"
  | .sort => "SortOp"
  | .limit => "Limit"

/-- The name of a kind, with the side that it belongs to. -/
def OperatorKind.text : OperatorKind → String
  | .logical kind => "Logical(" ++ kind.text ++ ")"
  | .physical kind => "Physical(" ++ kind.text ++ ")"

/-- The text of an operator that shows only how many keys it has. -/
private def keyedText (name : String) (keys : Nat) : String :=
  name ++ "[" ++ toString keys ++ " keys]"

/-- The text of a join without further choices. -/
private def joinText (name : String) (type : JoinType) (condition : Scalar) : String :=
  name ++ "[" ++ type.text ++ "](" ++ condition.text ++ ")"

private def limitText (offset count : UInt64) : String :=
  "Limit(" ++ toString offset.toNat ++ ", " ++ toString count.toNat ++ ")"

private def projectText (scalars : List Scalar) : String :=
  "Project[" ++ toString scalars.length ++ "]"

/-- The text of a logical operator, without its inputs. -/
def LogicalOperator.text : LogicalOperator → String
  | .scan table _ _ => "Scan(" ++ table.text ++ ")"
  | .filter predicate => "Filter(" ++ predicate.text ++ ")"
  | .project scalars _ => projectText scalars
  | .join type condition => joinText "Join" type condition
  | .aggregate keys _ => keyedText "Aggregate" keys.length
  | .sort order => keyedText "Sort" order.length
  | .limit offset count => limitText offset count

/-- The text of a physical operator, without its inputs. -/
def PhysicalOperator.text : PhysicalOperator → String
  | .seqScan table _ _ => "SeqScan(" ++ table.text ++ ")"
  | .filter predicate => "Filter(" ++ predicate.text ++ ")"
  | .project scalars _ => projectText scalars
  | .hashJoin type build condition =>
      "HashJoin[" ++ type.text ++ ", build=" ++ build.text ++ "](" ++ condition.text ++ ")"
  | .mergeJoin type condition => joinText "MergeJoin" type condition
  | .nestedLoopJoin type condition => joinText "NestedLoopJoin" type condition
  | .hashAggregate keys _ => keyedText "HashAggregate" keys.length
  | .streamAggregate keys _ => keyedText "StreamAggregate" keys.length
  | .sort order => keyedText "Sort" order.length
  | .limit offset count => limitText offset count

/-- The text of an operator. -/
def Operator.text : Operator → String
  | .logical operator => operator.text
  | .physical operator => operator.text

end Cascades
