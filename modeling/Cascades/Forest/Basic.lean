/-!
# Forests of alternatives

A forest holds many trees in little space. Each of its nodes stands for a value and has a list of
slots, and each slot lists the nodes that may fill it; a tree picks one of them for every slot, down
to nodes without slots. A node with an empty slot holds no tree at all.

Node 0 is the universal root. It stands for no value, and its slot lists the nodes a tree may start
from: those that were declared as roots and, once the trees are counted, those that no other node
lists.
-/

namespace Cascades

/-- The number of a node of a forest. -/
abbrev NodeId := Nat

/-- A node with its slots and the number of places that list it. The universal root has no value. -/
structure ForestNode (V : Type) where
  value : Option V
  slots : List (List NodeId)
  incoming : Nat

/-- What is known about the number of trees at a node. -/
inductive Tally where
  | unknown
  | underway
  | known (count : Nat)
deriving DecidableEq

/--
A forest, with what is known about the number of trees at its nodes. The tallies are stale if the
forest has changed since they were taken.
-/
structure Forest (V : Type) where
  nodes : Array (ForestNode V)
  tallies : Array Tally
  stale : Bool

/-- A tree of values. -/
inductive Tree (V : Type) where
  | node (value : V) (children : List (Tree V))

namespace Tree

variable {V α : Type}

mutual

/-- Combines a tree from its leaves up. -/
def fold (combine : V → List α → α) : Tree V → α
  | .node value children => combine value (foldAll combine children)

/-- The results of the trees of a list. -/
def foldAll (combine : V → List α → α) : List (Tree V) → List α
  | [] => []
  | tree :: rest => tree.fold combine :: foldAll combine rest

end

end Tree

namespace Forest

variable {V : Type}

/-- The forest of only the universal root. -/
def empty : Forest V :=
  ⟨#[⟨none, [], 0⟩], #[.unknown], false⟩

/-- The number of values in the forest. -/
def size (forest : Forest V) : Nat :=
  forest.nodes.size - 1

/-- Whether the forest has no nodes. -/
def isEmpty (forest : Forest V) : Bool :=
  forest.size == 0

/-- The slots of a node. -/
def slotsOf (nodes : Array (ForestNode V)) (id : NodeId) : List (List NodeId) :=
  match nodes[id]? with
  | some node => node.slots
  | none => []

/-- Replaces the slots of a node. -/
def setSlots (forest : Forest V) (id : NodeId) (slots : List (List NodeId)) : Forest V :=
  { forest with
    nodes := forest.nodes.modify id fun node => { node with slots }
    stale := true }

/-- Gives a node at least as many slots as asked for. -/
def ensureSlots (forest : Forest V) (id : NodeId) (arity : Nat) : Forest V :=
  let slots := slotsOf forest.nodes id
  if slots.length < arity then
    forest.setSlots id (slots ++ List.replicate (arity - slots.length) [])
  else forest

/-- Lists a node in a slot of another one, unless it is listed there already. -/
def link (forest : Forest V) (parent : NodeId) (slot : Nat) (child : NodeId) : Forest V :=
  if ((slotsOf forest.nodes parent).getD slot []).contains child then forest
  else
    let widened := forest.ensureSlots parent (slot + 1)
    let listed :=
      widened.setSlots parent ((slotsOf widened.nodes parent).modify slot (· ++ [child]))
    { listed with
      nodes := listed.nodes.modify child fun node => { node with incoming := node.incoming + 1 } }

variable [DecidableEq V]

/-- The node of a value. -/
def find? (forest : Forest V) (value : V) : Option NodeId :=
  forest.nodes.findIdx? fun node => node.value == some value

/-- Finds the node of a value, or adds one. -/
def intern (forest : Forest V) (value : V) : Forest V × NodeId :=
  match forest.find? value with
  | some id => (forest, id)
  | none =>
      ({ nodes := forest.nodes.push ⟨some value, [], 0⟩
         tallies := forest.tallies.push .unknown
         stale := true }, forest.nodes.size)

/-- Declares that a value has at least the given number of slots. -/
def insertNode (forest : Forest V) (value : V) (arity : Nat) : Forest V :=
  let (forest, id) := forest.intern value
  forest.ensureSlots id arity

/-- Lists a value in a slot of another value. No value may be listed in a slot of its own. -/
def insertEdge? (forest : Forest V) (parent : V) (slot : Nat) (child : V) : Option (Forest V) :=
  if parent = child then none
  else
    let (forest, parent) := forest.intern parent
    let (forest, child) := forest.intern child
    some (forest.link parent slot child)

/-- Declares that a tree may start from a value. -/
def insertRoot (forest : Forest V) (value : V) : Forest V :=
  let (forest, id) := forest.intern value
  forest.link 0 0 id

end Forest

end Cascades
