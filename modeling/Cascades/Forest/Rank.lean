import Cascades.Failure
import Cascades.Forest.Count
import Cascades.Text.Quoted

/-!
# Ranks of trees

The trees of a forest are numbered from zero. At a node a rank is a number in mixed radix, one digit
for every slot, the first slot's digit being the least significant one; the radix of a slot is the
number of trees of all nodes listed there. A digit selects one of these nodes by the numbers of
trees of those before it, and what is left of the digit is a rank at the selected node. At the
universal root the whole rank is the digit.
-/

namespace Cascades

namespace Forest

variable {V : Type}

/-- The listed node whose trees include the one of the given rank, with the rank left for it. -/
def select (count : NodeId → Nat) : List NodeId → Nat → Option (NodeId × Nat)
  | [], _ => none
  | id :: rest, rank =>
      if rank < count id then some (id, rank) else select count rest (rank - count id)

/-- The number of trees of all listed nodes. -/
def radix (count : NodeId → Nat) (slot : List NodeId) : Nat :=
  slot.foldl (fun total id => Saturating.add total (count id)) 0

/-- The subtrees that a rank stands for, slot by slot. -/
def treesAt (tree : NodeId → Nat → Except Failure (Tree V)) (count : NodeId → Nat) (node : NodeId)
    (position rank : Nat) : List (List NodeId) → Except Failure (List (Tree V))
  | [] => .ok []
  | slot :: rest =>
      if radix count slot = 0 then .error (.corrupted (.emptySlot position node))
      else
        match select count slot (rank % radix count slot) with
        | none => .error (.corrupted (.rankOverflow position node))
        | some (id, digit) => do
            let first ← tree id digit
            let others ← treesAt tree count node (position + 1) (rank / radix count slot) rest
            return first :: others

/-- The tree of a rank at a node. The depth bounds the height of the tree. -/
def treeAt (nodes : Array (ForestNode V)) (count : NodeId → Nat) :
    (depth : Nat) → NodeId → Nat → Except Failure (Tree V)
  | 0, _, _ => .error (.corrupted .rootUnranked)
  | depth + 1, id, rank =>
      match nodes[id]? with
      | some ⟨some value, slots, _⟩ => do
          let children ← treesAt (treeAt nodes count depth) count id 0 rank slots
          return .node value children
      | _ => .error (.corrupted .rootUnranked)

/-- The tree of a rank that is below the number of trees. -/
def tree (forest : Forest V) (rank : Nat) : Except Failure (Tree V) :=
  let count := tallyOf forest.tallies
  match select count ((slotsOf forest.nodes 0).getD 0 []) rank with
  | none => .error (.corrupted (.rankOverflow 0 0))
  | some (id, digit) => treeAt forest.nodes count forest.nodes.size id digit

variable [Quoted V]

/-- The text of the value of a node in messages. -/
def valueText (forest : Forest V) (id : NodeId) : String :=
  match forest.nodes[id]? with
  | some ⟨some value, _, _⟩ => "Some(" ++ Quoted.text value ++ ")"
  | _ => "None"

/-- The number of trees of the forest. -/
def treeCount (forest : Forest V) : Forest V × Except Failure Nat :=
  match forest.count with
  | (forest, .ok count) => (forest, .ok count)
  | (forest, .error node) => (forest, .error (.nodeCycle node (forest.valueText node)))

/-- The tree of a rank. -/
def unrank (forest : Forest V) (rank : Nat) : Forest V × Except Failure (Tree V) :=
  match forest.treeCount with
  | (forest, .error failure) => (forest, .error failure)
  | (forest, .ok count) =>
      if rank < count then (forest, forest.tree rank)
      else (forest, .error (.rankOutOfRange rank count))

/-- The trees of several ranks, or the first failure among them. -/
def unrankEach (forest : Forest V) : List Nat → Forest V × Except Failure (List (Tree V))
  | [] => (forest, .ok [])
  | rank :: rest =>
      match forest.unrank rank with
      | (forest, .error failure) => (forest, .error failure)
      | (forest, .ok tree) =>
          match unrankEach forest rest with
          | (forest, outcome) => (forest, outcome.map (tree :: ·))

/-- The number of trees of the forest, and the first of them up to a limit. -/
def firstTrees (forest : Forest V) (limit : Nat) :
    Forest V × Except Failure (Nat × List (Tree V)) :=
  match forest.treeCount with
  | (forest, .error failure) => (forest, .error failure)
  | (forest, .ok count) =>
      match forest.unrankEach (List.range (if count ≤ limit then count else limit)) with
      | (forest, outcome) => (forest, outcome.map fun trees => (count, trees))

variable [DecidableEq V]

/-- Lists a value in a slot of another value, or tells that they are the same. -/
def insertEdge (forest : Forest V) (parent : V) (slot : Nat) (child : V) :
    Except Failure (Forest V) :=
  match forest.insertEdge? parent slot child with
  | some forest => .ok forest
  | none => .error (.selfLoop (Quoted.text parent) slot)

end Forest

end Cascades
