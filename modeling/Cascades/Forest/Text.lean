import Cascades.Forest.Rank

/-!
# Text of forests

Every node is shown on a line, with its number of trees if that is known and the nodes that each of
its slots lists.
-/

namespace Cascades

namespace Tally

/-- A count that is not known is shown as a question mark. -/
def text : Tally → String
  | .known count => toString count
  | _ => "?"

end Tally

namespace Forest

variable {V : Type} [Quoted V]

/-- The nodes that a slot lists. -/
def slotText (slot : List NodeId) : String :=
  "[" ++ " | ".intercalate (slot.map fun id => "#" ++ toString id) ++ "]"

/-- The line of a node, without its end. -/
def nodeText (id : NodeId) (node : ForestNode V) (tally : Tally) : String :=
  let label :=
    match node.value with
    | some value => Quoted.text value
    | none => "<root>"
  "#" ++ toString id ++ " " ++ label ++ " count=" ++ tally.text ++ " in=" ++
    toString node.incoming ++ " slots=" ++ " ".intercalate (node.slots.map slotText)

/-- The line of an existing node. -/
def lineOf (forest : Forest V) (id : NodeId) : Option String :=
  match forest.nodes[id]? with
  | some node => some (nodeText id node (forest.tallies.getD id .unknown))
  | none => none

/-- The line of the node of a value. -/
def describe [DecidableEq V] (forest : Forest V) (value : V) : Option String :=
  (forest.find? value).bind forest.lineOf

/-- The lines of all nodes. -/
def text (forest : Forest V) : String :=
  String.join (((List.range forest.nodes.size).filterMap forest.lineOf).map (· ++ "\n"))

end Forest

end Cascades
