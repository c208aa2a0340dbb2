import Cascades.Forest.Index
import Cascades.Proofs.Forest.Questions

/-!
# The index changes no answer

The bucket of a key holds exactly the edges with that key, so whatever other edges it holds, the one
that is looked for is found in it exactly if the slot lists its child. A forest that finds its edges
by hash is therefore at all times the forest that searches its slots, for every choice of the hash.
-/

namespace Cascades

namespace IndexedForest

open Forest

variable {V : Type} {hash : Option V → UInt64} {indexed : IndexedForest V}

/-- The index leads to the edges of the forest and to nothing else. -/
structure Faithful (hash : Option V → UInt64) (indexed : IndexedForest V) : Prop where
  wellFormed : indexed.forest.WellFormed
  edges : ∀ {key parent child}, (parent, child) ∈ indexed.bucket key ↔
    child ∈ slotAt indexed.forest.nodes parent key.slot ∧
      key = edgeKey hash indexed.forest.nodes parent key.slot child

theorem edgeKey_congr {nodes others : Array (ForestNode V)} {parent child : NodeId}
    (parent_same : valueOf others parent = valueOf nodes parent)
    (child_same : valueOf others child = valueOf nodes child) (slot : Nat) :
    edgeKey hash others parent slot child = edgeKey hash nodes parent slot child := by
  rw [valueOf, valueOf] at parent_same child_same
  rw [edgeKey, edgeKey, parent_same, child_same]

namespace Faithful

theorem empty : (IndexedForest.empty : IndexedForest V).Faithful hash where
  wellFormed := .empty
  edges := by
    intro key parent child
    rcases parent with _ | parent <;>
      simp [IndexedForest.empty, bucket, Forest.empty, slotAt, slotsOf]

/-- The index stays right as long as no node is listed anywhere else. -/
theorem of_kept (faithful : indexed.Faithful hash) {forest : Forest V}
    (wellFormed : forest.WellFormed)
    (slots : ∀ id slot, slotAt forest.nodes id slot = slotAt indexed.forest.nodes id slot)
    (values : ∀ id < indexed.forest.nodes.size,
      valueOf forest.nodes id = valueOf indexed.forest.nodes id) :
    Faithful hash { indexed with forest } where
  wellFormed := wellFormed
  edges := by
    intro key parent child
    refine faithful.edges.trans ?_
    rw [slots]
    refine and_congr_right fun child_mem => ?_
    have lists : Lists indexed.forest.nodes parent child := ⟨key.slot, child_mem⟩
    have parent_lt : parent < indexed.forest.nodes.size := by
      by_contra beyond
      rw [slotAt, slotsOf_eq_nil_of_size_le (Nat.le_of_not_lt beyond)] at child_mem
      simp at child_mem
    have child_lt := (faithful.wellFormed.shaped.listed parent child lists).2
    rw [edgeKey_congr (values parent parent_lt) (values child child_lt)]

/-- The index finds an edge exactly if a search of the slot does. -/
theorem forest_link (faithful : indexed.Faithful hash) (parent : NodeId) (slot : Nat)
    (child : NodeId) :
    (indexed.link hash parent slot child).forest = indexed.forest.link parent slot child := by
  have found : (indexed.bucket (edgeKey hash indexed.forest.nodes parent slot child)).contains
      (parent, child) = ((slotsOf indexed.forest.nodes parent).getD slot []).contains child := by
    rw [Bool.eq_iff_iff, List.contains_iff_mem, List.contains_iff_mem, faithful.edges]
    exact and_iff_left rfl
  rw [IndexedForest.link, link_eq]
  rw [found]
  split <;> rfl

theorem link (faithful : indexed.Faithful hash) {parent child : NodeId} {slot : Nat}
    (parent_lt : parent < indexed.forest.nodes.size) (child_pos : 0 < child)
    (child_lt : child < indexed.forest.nodes.size) (root_slot : parent = 0 → slot = 0) :
    (indexed.link hash parent slot child).Faithful hash := by
  have wellFormed := faithful.wellFormed.link parent_lt child_pos child_lt root_slot
  rw [← faithful.forest_link] at wellFormed
  refine ⟨wellFormed, ?_⟩
  intro key other listed
  by_cases child_mem : child ∈ slotAt indexed.forest.nodes parent slot
  · have known : (parent, child) ∈
        indexed.bucket (edgeKey hash indexed.forest.nodes parent slot child) :=
      faithful.edges.mpr ⟨child_mem, rfl⟩
    have link_eq : indexed.link hash parent slot child = indexed := by
      rw [IndexedForest.link]
      exact if_pos (List.contains_iff_mem.mpr known)
    rw [link_eq]
    exact faithful.edges
  · have unknown : (parent, child) ∉
        indexed.bucket (edgeKey hash indexed.forest.nodes parent slot child) :=
      fun known => child_mem (faithful.edges.mp known).1
    have bucket_eq : (indexed.link hash parent slot child).bucket key =
        if key = edgeKey hash indexed.forest.nodes parent slot child then
          indexed.bucket key ++ [(parent, child)]
        else indexed.bucket key := by
      rw [IndexedForest.link]
      rw [if_neg (by simpa using unknown), bucket, List.lookup_cons]
      by_cases here : key = edgeKey hash indexed.forest.nodes parent slot child
      · rw [if_pos here, here]
        simp
      · rw [if_neg here, beq_false_of_ne here]
        rfl
    have slots : slotAt (indexed.link hash parent slot child).forest.nodes other key.slot =
        if other = parent ∧ key.slot = slot then slotAt indexed.forest.nodes parent slot ++ [child]
        else slotAt indexed.forest.nodes other key.slot := by
      rw [faithful.forest_link]
      exact slotAt_link_of_notMem child_mem parent_lt key.slot
    have key_eq : edgeKey hash (indexed.link hash parent slot child).forest.nodes other key.slot
        listed = edgeKey hash indexed.forest.nodes other key.slot listed := by
      rw [faithful.forest_link]
      exact edgeKey_congr valueOf_link valueOf_link key.slot
    rw [bucket_eq, slots, key_eq]
    constructor
    · intro listed_mem
      split at listed_mem
      · rename_i here
        rcases List.mem_append.mp listed_mem with old | new
        · rcases faithful.edges.mp old with ⟨old_mem, old_key⟩
          refine ⟨?_, old_key⟩
          split
          · rename_i same
            rw [same.1, same.2] at old_mem
            exact List.mem_append_left _ old_mem
          · exact old_mem
        · obtain ⟨rfl, rfl⟩ : other = parent ∧ listed = child := by simpa using new
          have slot_eq : key.slot = slot := by rw [here, edgeKey]
          rw [slot_eq, if_pos ⟨rfl, rfl⟩]
          exact ⟨by simp, here⟩
      · rcases faithful.edges.mp listed_mem with ⟨old_mem, old_key⟩
        refine ⟨?_, old_key⟩
        split
        · rename_i same
          rw [same.1, same.2] at old_mem
          exact List.mem_append_left _ old_mem
        · exact old_mem
    · rintro ⟨listed_mem, key_here⟩
      split at listed_mem
      · rename_i same
        rcases same with ⟨rfl, rfl⟩
        rcases List.mem_append.mp listed_mem with old | new
        · have kept := faithful.edges.mpr ⟨old, key_here⟩
          split
          · exact List.mem_append_left _ kept
          · exact kept
        · obtain rfl := List.mem_singleton.mp new
          rw [if_pos key_here]
          simp
      · have kept := faithful.edges.mpr ⟨listed_mem, key_here⟩
        split
        · exact List.mem_append_left _ kept
        · exact kept

theorem foldl_link (faithful : indexed.Faithful hash) {ids : List NodeId}
    (valued : ∀ id ∈ ids, 0 < id ∧ id < indexed.forest.nodes.size) :
    Faithful hash (ids.foldl (fun indexed id => indexed.link hash 0 0 id) indexed) ∧
      (ids.foldl (fun indexed id => indexed.link hash 0 0 id) indexed).forest =
        ids.foldl (fun forest id => forest.link 0 0 id) indexed.forest := by
  induction ids generalizing indexed with
  | nil => exact ⟨faithful, rfl⟩
  | cons id ids ih =>
      rcases valued id List.mem_cons_self with ⟨positive, bounded⟩
      have linked := faithful.link faithful.wellFormed.shaped.nonempty positive bounded fun _ => rfl
      rw [List.foldl_cons, List.foldl_cons, ← faithful.forest_link]
      refine ih linked fun other other_mem => ?_
      rw [faithful.forest_link, size_link]
      exact valued other (List.mem_cons_of_mem id other_mem)

theorem adoptOrphans (faithful : indexed.Faithful hash) :
    (indexed.adoptOrphans hash).Faithful hash ∧
      (indexed.adoptOrphans hash).forest = indexed.forest.adoptOrphans := by
  refine faithful.foldl_link fun id id_mem => ?_
  rcases ((mem_orphans faithful.wellFormed.shaped).mp id_mem).1 with ⟨value, valued⟩
  exact ⟨faithful.wellFormed.shaped.pos_of_valueOf valued, lt_size_of_valueOf valued⟩

/-- A count of the indexed forest is the count of the forest. -/
theorem count (faithful : indexed.Faithful hash) :
    (indexed.count hash).1.Faithful hash ∧ (indexed.count hash).1.forest = indexed.forest.count.1 ∧
      (indexed.count hash).2 = indexed.forest.count.2 := by
  rcases faithful.adoptOrphans with ⟨adopted, forest_eq⟩
  rcases count_outcome faithful.wellFormed with ⟨counted, nodes_eq, -, -⟩
  have count_eq : (indexed.adoptOrphans hash).forest.countAdopted = indexed.forest.count := by
    rw [forest_eq, Forest.count_eq]
  have nodes_kept : indexed.forest.count.1.nodes = (indexed.adoptOrphans hash).forest.nodes := by
    rw [nodes_eq, forest_eq]
  refine ⟨?_, by rw [← count_eq]; rfl, by rw [← count_eq]; rfl⟩
  have kept := adopted.of_kept counted (by simp [nodes_kept]) (by simp [nodes_kept])
  rw [← count_eq] at kept
  exact kept

section Answers

variable [Quoted V]

theorem treeCount (faithful : indexed.Faithful hash) :
    (indexed.treeCount hash).1.Faithful hash ∧
      (indexed.treeCount hash).1.forest = indexed.forest.treeCount.1 ∧
        (indexed.treeCount hash).2 = indexed.forest.treeCount.2 := by
  rcases faithful.count with ⟨counted, forest_eq, outcome_eq⟩
  rw [IndexedForest.treeCount, Forest.treeCount]
  rcases there : indexed.count hash with ⟨after, outcome⟩
  rcases here : indexed.forest.count with ⟨plain, result⟩
  rw [there] at counted
  rw [there, here] at forest_eq outcome_eq
  dsimp only at forest_eq outcome_eq
  subst outcome_eq
  cases outcome with
  | error node => exact ⟨counted, forest_eq, by dsimp only; rw [forest_eq]⟩
  | ok number => exact ⟨counted, forest_eq, rfl⟩

theorem unrank (faithful : indexed.Faithful hash) (rank : Nat) :
    (indexed.unrank hash rank).1.Faithful hash ∧
      (indexed.unrank hash rank).1.forest = (indexed.forest.unrank rank).1 ∧
        (indexed.unrank hash rank).2 = (indexed.forest.unrank rank).2 := by
  rcases faithful.treeCount with ⟨counted, forest_eq, outcome_eq⟩
  rw [IndexedForest.unrank, Forest.unrank]
  rcases there : indexed.treeCount hash with ⟨after, outcome⟩
  rcases here : indexed.forest.treeCount with ⟨plain, result⟩
  rw [there] at counted
  rw [there, here] at forest_eq outcome_eq
  dsimp only at forest_eq outcome_eq
  subst outcome_eq
  cases outcome with
  | error failure => exact ⟨counted, forest_eq, rfl⟩
  | ok number =>
      dsimp only
      split
      · exact ⟨counted, forest_eq, by dsimp only; rw [forest_eq]⟩
      · exact ⟨counted, forest_eq, rfl⟩

end Answers

variable [DecidableEq V]

theorem intern (faithful : indexed.Faithful hash) (value : V) :
    Faithful hash { indexed with forest := (indexed.forest.intern value).1 } := by
  refine faithful.of_kept (faithful.wellFormed.intern value) ?_ ?_
  · intro id slot
    rw [Forest.intern]
    split
    · rfl
    · rw [slotAt, slotAt, slotsOf_push]
  · intro id bounded
    rw [Forest.intern]
    split
    · rfl
    · rw [valueOf_push, if_neg (Nat.ne_of_lt bounded)]

theorem insertNode (faithful : indexed.Faithful hash) (value : V) (arity : Nat) :
    (indexed.insertNode value arity).Faithful hash :=
  (faithful.intern value).of_kept (faithful.wellFormed.insertNode value arity)
    (fun _ slot => slotAt_ensureSlots slot) fun _ _ => valueOf_ensureSlots

end Faithful

variable [DecidableEq V] [Quoted V]

/-- The forest after a command. A refused edge leaves it as it was. -/
def perform (hash : Option V → UInt64) (indexed : IndexedForest V) :
    Command V → IndexedForest V
  | .insertNode value arity => indexed.insertNode value arity
  | .insertEdge parent slot child =>
      match indexed.insertEdge hash parent slot child with
      | .ok extended => extended
      | .error _ => indexed
  | .insertRoot value => indexed.insertRoot hash value
  | .count => (indexed.treeCount hash).1
  | .unrank rank => (indexed.unrank hash rank).1

namespace Faithful

/-- A command does to the indexed forest what it does to the forest. -/
theorem perform (faithful : indexed.Faithful hash) (command : Command V) :
    (indexed.perform hash command).Faithful hash ∧
      (indexed.perform hash command).forest = indexed.forest.perform command := by
  have shaped := faithful.wellFormed.shaped
  cases command with
  | insertNode value arity => exact ⟨faithful.insertNode value arity, rfl⟩
  | insertEdge parent slot child =>
      rw [perform_insertEdge]
      simp only [IndexedForest.perform, insertEdge]
      by_cases loop : parent = child
      · rw [if_pos loop, if_pos loop]
        exact ⟨faithful, rfl⟩
      · rw [if_neg loop, if_neg loop]
        have interned := (faithful.intern parent).intern child
        have both := interned.wellFormed.shaped
        have parent_valued : valueOf ((indexed.forest.intern parent).1.intern child).1.nodes
            (indexed.forest.intern parent).2 = some parent :=
          Shaped.valueOf_intern_of_valueOf (shaped.valueOf_intern parent)
        have child_valued := (shaped.intern parent).valueOf_intern child
        exact ⟨interned.link (lt_size_of_valueOf parent_valued) (both.pos_of_valueOf child_valued)
          (lt_size_of_valueOf child_valued)
          fun root => (Nat.ne_of_gt (both.pos_of_valueOf parent_valued) root).elim,
          interned.forest_link _ slot _⟩
  | insertRoot value =>
      have interned := faithful.intern value
      have valued := shaped.valueOf_intern value
      exact ⟨interned.link interned.wellFormed.shaped.nonempty
        (interned.wellFormed.shaped.pos_of_valueOf valued) (lt_size_of_valueOf valued) fun _ => rfl,
        interned.forest_link 0 0 _⟩
  | count => exact ⟨faithful.treeCount.1, faithful.treeCount.2.1⟩
  | unrank rank => exact ⟨(faithful.unrank rank).1, (faithful.unrank rank).2.1⟩

/-- After every history the indexed forest is the forest of the same history. -/
theorem foldl (faithful : indexed.Faithful hash) (commands : List (Command V)) :
    (commands.foldl (IndexedForest.perform hash) indexed).Faithful hash ∧
      (commands.foldl (IndexedForest.perform hash) indexed).forest =
        commands.foldl Forest.perform indexed.forest := by
  induction commands generalizing indexed with
  | nil => exact ⟨faithful, rfl⟩
  | cons command commands ih =>
      rcases faithful.perform command with ⟨performed, forest_eq⟩
      rw [List.foldl_cons, List.foldl_cons, ← forest_eq]
      exact ih performed

theorem foldl_empty (hash : Option V → UInt64) (commands : List (Command V)) :
    (commands.foldl (IndexedForest.perform hash) IndexedForest.empty).Faithful hash ∧
      (commands.foldl (IndexedForest.perform hash) IndexedForest.empty).forest =
        commands.foldl Forest.perform Forest.empty :=
  Faithful.empty.foldl commands

end Faithful

end IndexedForest

end Cascades
