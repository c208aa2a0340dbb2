import Cascades.Forest.Basic

/-!
# Counting the trees of a forest

The number of trees at a node is the product over its slots of the sum over the nodes listed there.
Sums and products stop at the largest 64-bit number.

Counting first lets trees start from every node that is listed nowhere, which is permanent. It then
visits all nodes in order, and the universal root last. A node that is met again while its own trees
are being counted lies below itself: its trees would be infinite, and the count fails. The tallies
taken up to then stay readable, but the next count starts over.
-/

namespace Cascades

namespace Saturating

/-- The largest count. -/
def limit : Nat := UInt64.size - 1

/-- The sum, or the limit if it is larger. -/
def add (left right : Nat) : Nat :=
  if left + right ≤ limit then left + right else limit

/-- The product, or the limit if it is larger. -/
def mul (left right : Nat) : Nat :=
  if left * right ≤ limit then left * right else limit

end Saturating

namespace Forest

variable {V : Type}

/-- A count, or a node that lies below itself, with the tallies taken so far. -/
abbrev Counted (α : Type) := Array Tally × Except NodeId α

/-- The number of trees of the nodes listed in one slot, added to a total. -/
def countAlternatives (count : Array Tally → NodeId → Counted Nat) (tallies : Array Tally)
    (total : Nat) : List NodeId → Counted Nat
  | [] => (tallies, .ok total)
  | id :: rest =>
      match count tallies id with
      | (tallies, .error node) => (tallies, .error node)
      | (tallies, .ok trees) =>
          countAlternatives count tallies (Saturating.add total trees) rest

/-- The number of choices for a list of slots, multiplied with a total. -/
def countSlots (count : Array Tally → NodeId → Counted Nat) (tallies : Array Tally)
    (total : Nat) : List (List NodeId) → Counted Nat
  | [] => (tallies, .ok total)
  | slot :: rest =>
      match countAlternatives count tallies 0 slot with
      | (tallies, .error node) => (tallies, .error node)
      | (tallies, .ok alternatives) =>
          countSlots count tallies (Saturating.mul total alternatives) rest

/--
The number of trees at a node. The depth bounds the length of the path of nodes that are being
counted.
-/
def countNode (nodes : Array (ForestNode V)) : (depth : Nat) → Array Tally → NodeId → Counted Nat
  | 0, tallies, id => (tallies, .error id)
  | depth + 1, tallies, id =>
      match tallies[id]? with
      | some (.known count) => (tallies, .ok count)
      | some .underway => (tallies, .error id)
      | _ =>
          match countSlots (countNode nodes depth) (tallies.setIfInBounds id .underway) 1
              (slotsOf nodes id) with
          | (tallies, .error node) => (tallies, .error node)
          | (tallies, .ok count) => (tallies.setIfInBounds id (.known count), .ok count)

/-- Counts the trees at each of a list of nodes, up to the first failure. -/
def countEach (count : Array Tally → NodeId → Counted Nat) (tallies : Array Tally) :
    List NodeId → Counted Unit
  | [] => (tallies, .ok ())
  | id :: rest =>
      match count tallies id with
      | (tallies, .error node) => (tallies, .error node)
      | (tallies, .ok _) => countEach count tallies rest

/-- The nodes of all values. -/
def valueNodes (forest : Forest V) : List NodeId :=
  List.range' 1 forest.size

/-- The nodes of values that are listed nowhere. -/
def orphans (forest : Forest V) : List NodeId :=
  forest.valueNodes.filter fun id =>
    match forest.nodes[id]? with
    | some node => node.incoming == 0
    | none => false

/-- Lets trees start from every node that is listed nowhere. -/
def adoptOrphans (forest : Forest V) : Forest V :=
  forest.orphans.foldl (fun forest id => forest.link 0 0 id) forest

/-- The tallies to start a count from. -/
def freshTallies (forest : Forest V) : Array Tally :=
  if forest.stale then Array.replicate forest.nodes.size .unknown else forest.tallies

/-- The number of trees of the forest, or a node that lies below itself. -/
def count (forest : Forest V) : Forest V × Except NodeId Nat :=
  let forest := forest.adoptOrphans
  let count := countNode forest.nodes (forest.nodes.size + 1)
  match countEach count forest.freshTallies forest.valueNodes with
  | (tallies, .error node) => ({ forest with tallies, stale := true }, .error node)
  | (tallies, .ok ()) =>
      if (slotsOf forest.nodes 0).isEmpty then ({ forest with tallies, stale := false }, .ok 0)
      else
        let (tallies, outcome) := count tallies 0
        ({ forest with tallies, stale := false }, outcome)

/-- The number of trees at a node as far as it is known, and zero otherwise. -/
def tallyOf (tallies : Array Tally) (id : NodeId) : Nat :=
  match tallies[id]? with
  | some (.known count) => count
  | _ => 0

/-- The number of trees at a value, as of the last count. -/
def countOf [DecidableEq V] (forest : Forest V) (value : V) : Option Nat :=
  match forest.find? value with
  | some id =>
      match forest.tallies[id]? with
      | some (.known count) => some count
      | _ => none
  | none => none

end Forest

end Cascades
