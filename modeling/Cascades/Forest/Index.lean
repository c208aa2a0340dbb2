import Cascades.Forest.Rank

/-!
# An index of the edges

Instead of searching a slot for a node that may be listed there already, a forest can keep an index
of its edges. An edge is looked up by a key: the hashes of the values at its two ends, and the slot.
Different edges may have one key, so a key leads to a bucket that holds all edges of that key. The
hash is chosen when the forest is made; the universal root, which stands for no value, has one too.
-/

namespace Cascades

/-- What an edge is looked up by. -/
structure EdgeKey where
  parent : UInt64
  child : UInt64
  slot : Nat
deriving DecidableEq

/-- A forest with the edges of every key, a later bucket of a key in place of an earlier one. -/
structure IndexedForest (V : Type) where
  forest : Forest V
  buckets : List (EdgeKey × List (NodeId × NodeId))

namespace Forest

variable {V : Type}

/-- The key of an edge. -/
def edgeKey (hash : Option V → UInt64) (nodes : Array (ForestNode V)) (parent : NodeId)
    (slot : Nat) (child : NodeId) : EdgeKey :=
  ⟨hash (nodes[parent]?.bind ForestNode.value), hash (nodes[child]?.bind ForestNode.value), slot⟩

/-- Lists a node in a slot of another one, whether it is listed there or not. -/
def list (forest : Forest V) (parent : NodeId) (slot : Nat) (child : NodeId) : Forest V :=
  let widened := forest.ensureSlots parent (slot + 1)
  let listed :=
    widened.setSlots parent ((slotsOf widened.nodes parent).modify slot (· ++ [child]))
  { listed with
    nodes := listed.nodes.modify child fun node => { node with incoming := node.incoming + 1 } }

/-- The number of trees of a forest whose orphans have been adopted. -/
def countAdopted (forest : Forest V) : Forest V × Except NodeId Nat :=
  let count := countNode forest.nodes (forest.nodes.size + 1)
  match countEach count forest.freshTallies forest.valueNodes with
  | (tallies, .error node) => ({ forest with tallies, stale := true }, .error node)
  | (tallies, .ok ()) =>
      if (slotsOf forest.nodes 0).isEmpty then ({ forest with tallies, stale := false }, .ok 0)
      else
        let (tallies, outcome) := count tallies 0
        ({ forest with tallies, stale := false }, outcome)

theorem link_eq (forest : Forest V) (parent : NodeId) (slot : Nat) (child : NodeId) :
    forest.link parent slot child =
      if ((slotsOf forest.nodes parent).getD slot []).contains child then forest
      else forest.list parent slot child :=
  rfl

theorem count_eq (forest : Forest V) : forest.count = forest.adoptOrphans.countAdopted :=
  rfl

end Forest

namespace IndexedForest

variable {V : Type}

/-- The forest of only the universal root. -/
def empty : IndexedForest V :=
  ⟨.empty, []⟩

/-- The edges of a key. -/
def bucket (indexed : IndexedForest V) (key : EdgeKey) : List (NodeId × NodeId) :=
  (indexed.buckets.lookup key).getD []

/-- The number of trees at a value, as of the last count. -/
def countOf [DecidableEq V] (indexed : IndexedForest V) (value : V) : Option Nat :=
  indexed.forest.countOf value

variable (hash : Option V → UInt64)

/-- Lists a node in a slot of another one, unless the index has the edge. -/
def link (indexed : IndexedForest V) (parent : NodeId) (slot : Nat) (child : NodeId) :
    IndexedForest V :=
  let key := Forest.edgeKey hash indexed.forest.nodes parent slot child
  let edges := indexed.bucket key
  if edges.contains (parent, child) then indexed
  else
    ⟨indexed.forest.list parent slot child, (key, edges ++ [(parent, child)]) :: indexed.buckets⟩

/-- Lets trees start from every node that is listed nowhere. -/
def adoptOrphans (indexed : IndexedForest V) : IndexedForest V :=
  indexed.forest.orphans.foldl (fun indexed id => indexed.link hash 0 0 id) indexed

/-- The number of trees of the forest, or a node that lies below itself. -/
def count (indexed : IndexedForest V) : IndexedForest V × Except NodeId Nat :=
  let adopted := indexed.adoptOrphans hash
  let (forest, outcome) := adopted.forest.countAdopted
  ({ adopted with forest }, outcome)

section Answers

variable [Quoted V]

/-- The number of trees of the forest. -/
def treeCount (indexed : IndexedForest V) : IndexedForest V × Except Failure Nat :=
  match indexed.count hash with
  | (indexed, .ok count) => (indexed, .ok count)
  | (indexed, .error node) =>
      (indexed, .error (.nodeCycle node (indexed.forest.valueText node)))

/-- The tree of a rank. -/
def unrank (indexed : IndexedForest V) (rank : Nat) :
    IndexedForest V × Except Failure (Tree V) :=
  match indexed.treeCount hash with
  | (indexed, .error failure) => (indexed, .error failure)
  | (indexed, .ok count) =>
      if rank < count then (indexed, indexed.forest.tree rank)
      else (indexed, .error (.rankOutOfRange rank count))

end Answers

variable [DecidableEq V]

/-- Declares that a value has at least the given number of slots. -/
def insertNode (indexed : IndexedForest V) (value : V) (arity : Nat) : IndexedForest V :=
  { indexed with forest := indexed.forest.insertNode value arity }

/-- Lists a value in a slot of another value, or tells that they are the same. -/
def insertEdge [Quoted V] (indexed : IndexedForest V) (parent : V) (slot : Nat) (child : V) :
    Except Failure (IndexedForest V) :=
  if parent = child then .error (.selfLoop (Quoted.text parent) slot)
  else
    let (forest, parent) := indexed.forest.intern parent
    let (forest, child) := forest.intern child
    .ok (link hash { indexed with forest } parent slot child)

/-- Declares that a tree may start from a value. -/
def insertRoot (indexed : IndexedForest V) (value : V) : IndexedForest V :=
  let (forest, id) := indexed.forest.intern value
  link hash { indexed with forest } 0 0 id

end IndexedForest

end Cascades
