import Cascades.Proofs.Forest.Shape
import Mathlib.Algebra.BigOperators.Group.List.Basic
import Mathlib.Data.Set.Card

/-!
# The trees of a forest

A node holds a tree if it stands for the tree's value and each of its slots lists a node that holds
the tree's subtree there. Different nodes stand for different values, so a tree is held by one node
at most, and the trees of a slot are the disjoint union of those of the nodes it lists.

A node below which every path ends holds finitely many trees: the product over its slots of the sum
over the nodes listed there.
-/

namespace Cascades

namespace Forest

variable {V : Type}

mutual

/-- A node stands for the value of a tree, and its slots list nodes that hold the subtrees. -/
def HoldsTree (nodes : Array (ForestNode V)) (id : NodeId) : Tree V → Prop
  | .node value children =>
      valueOf nodes id = some value ∧ HoldsTrees nodes (slotsOf nodes id) children

/-- Each of a list of slots lists a node that holds the tree at its position. -/
def HoldsTrees (nodes : Array (ForestNode V)) : List (List NodeId) → List (Tree V) → Prop
  | [], [] => True
  | slot :: slots, tree :: trees =>
      (∃ id ∈ slot, HoldsTree nodes id tree) ∧ HoldsTrees nodes slots trees
  | _, _ => False

end

/-- The trees that a node holds. -/
def held (nodes : Array (ForestNode V)) (id : NodeId) : Set (Tree V) :=
  { tree | HoldsTree nodes id tree }

/-- The trees that the nodes listed in a slot hold. -/
def heldBySlot (nodes : Array (ForestNode V)) (slot : List NodeId) : Set (Tree V) :=
  { tree | ∃ id ∈ slot, HoldsTree nodes id tree }

/-- The ways to fill a list of slots with trees. -/
def heldBySlots (nodes : Array (ForestNode V)) (slots : List (List NodeId)) :
    Set (List (Tree V)) :=
  { trees | HoldsTrees nodes slots trees }

/-- The exact number of trees at a node. -/
noncomputable def numberAt (nodes : Array (ForestNode V)) (id : NodeId) : Nat :=
  (held nodes id).ncard

/-- The exact number of trees of the nodes listed in a slot. -/
noncomputable def numberIn (nodes : Array (ForestNode V)) (slot : List NodeId) : Nat :=
  (slot.map (numberAt nodes)).sum

/-- Every path below a node ends. -/
def Grounded (nodes : Array (ForestNode V)) (id : NodeId) : Prop :=
  Acc (fun child parent => Lists nodes parent child) id

theorem Grounded.child {nodes : Array (ForestNode V)} {parent child : NodeId}
    (grounded : Grounded nodes parent) (lists : Lists nodes parent child) :
    Grounded nodes child :=
  Acc.inv grounded lists

theorem Grounded.not_transGen {nodes : Array (ForestNode V)} {id : NodeId}
    (grounded : Grounded nodes id) : ¬ Relation.TransGen (Lists nodes) id id := by
  intro loop
  induction grounded with
  | intro id _ ih =>
      rcases Relation.TransGen.head'_iff.mp loop with ⟨child, lists, back⟩
      exact ih child lists (Relation.TransGen.tail' back lists)

section Sets

variable {nodes : Array (ForestNode V)}

theorem held_of_valueOf {id : NodeId} {value : V} (valued : valueOf nodes id = some value) :
    held nodes id = Tree.node value '' heldBySlots nodes (slotsOf nodes id) := by
  ext tree
  cases tree with
  | node root children =>
      simp only [held, heldBySlots, Set.mem_ofPred_eq, HoldsTree, valued, Option.some.injEq,
        Set.mem_image, Tree.node.injEq]
      constructor
      · rintro ⟨rfl, holds⟩
        exact ⟨children, holds, rfl, rfl⟩
      · rintro ⟨subtrees, holds, rfl, rfl⟩
        exact ⟨rfl, holds⟩

/-- The universal root holds no tree. -/
theorem valueOf_of_numberAt_pos {id : NodeId} (positive : 0 < numberAt nodes id) :
    ∃ value, valueOf nodes id = some value := by
  rcases Set.nonempty_of_ncard_ne_zero (Nat.ne_of_gt positive) with ⟨⟨value, children⟩, holds⟩
  exact ⟨value, holds.1⟩

@[simp]
theorem heldBySlot_nil : heldBySlot nodes [] = ∅ := by
  simp [heldBySlot]

theorem heldBySlot_cons (id : NodeId) (slot : List NodeId) :
    heldBySlot nodes (id :: slot) = held nodes id ∪ heldBySlot nodes slot := by
  ext tree
  simp [heldBySlot, held]

@[simp]
theorem heldBySlots_nil : heldBySlots nodes [] = {[]} := by
  ext trees
  cases trees <;> simp [heldBySlots, HoldsTrees]

theorem heldBySlots_cons (slot : List NodeId) (slots : List (List NodeId)) :
    heldBySlots nodes (slot :: slots) =
      (fun filled : Tree V × List (Tree V) => filled.1 :: filled.2) ''
        heldBySlot nodes slot ×ˢ heldBySlots nodes slots := by
  ext trees
  cases trees with
  | nil => simp [heldBySlots, HoldsTrees]
  | cons tree trees => simp [heldBySlots, heldBySlot, HoldsTrees]

/-- A tree is held by one node at most. -/
theorem HoldsTree.unique (shaped : Shaped nodes) {first second : NodeId} {tree : Tree V}
    (first_holds : HoldsTree nodes first tree) (second_holds : HoldsTree nodes second tree) :
    first = second := by
  cases tree with
  | node value children =>
      exact shaped.distinct first second value first_holds.1 second_holds.1

theorem notMem_heldBySlot (shaped : Shaped nodes) {id : NodeId} {slot : List NodeId}
    (notMem : id ∉ slot) {tree : Tree V} (holds : tree ∈ held nodes id) :
    tree ∉ heldBySlot nodes slot := by
  rintro ⟨other, other_mem, other_holds⟩
  exact notMem (HoldsTree.unique shaped holds other_holds ▸ other_mem)

theorem heldBySlot_finite {slot : List NodeId}
    (finite : ∀ id ∈ slot, (held nodes id).Finite) : (heldBySlot nodes slot).Finite := by
  induction slot with
  | nil => simp
  | cons id slot ih =>
      rw [heldBySlot_cons]
      exact (finite id List.mem_cons_self).union
        (ih fun other other_mem => finite other (List.mem_cons_of_mem id other_mem))

theorem heldBySlots_finite {slots : List (List NodeId)}
    (finite : ∀ slot ∈ slots, ∀ id ∈ slot, (held nodes id).Finite) :
    (heldBySlots nodes slots).Finite := by
  induction slots with
  | nil => simp
  | cons slot slots ih =>
      rw [heldBySlots_cons]
      have slot_finite := heldBySlot_finite (finite slot List.mem_cons_self)
      exact (slot_finite.prod
        (ih fun other other_mem => finite other (List.mem_cons_of_mem slot other_mem))).image _

theorem Grounded.held_finite {id : NodeId} (grounded : Grounded nodes id) :
    (held nodes id).Finite := by
  induction grounded with
  | intro id _ ih =>
      cases valued : valueOf nodes id with
      | none =>
          refine Set.finite_empty.subset ?_
          rintro ⟨value, children⟩ holds
          simp [held, HoldsTree, valued] at holds
      | some value =>
          rw [held_of_valueOf valued]
          refine (heldBySlots_finite ?_).image _
          intro slot slot_mem child child_mem
          exact ih child (lists_iff.mpr ⟨slot, slot_mem, child_mem⟩)

theorem ncard_heldBySlot (shaped : Shaped nodes) {slot : List NodeId} (nodup : slot.Nodup)
    (finite : ∀ id ∈ slot, (held nodes id).Finite) :
    (heldBySlot nodes slot).ncard = numberIn nodes slot := by
  induction slot with
  | nil => simp [numberIn]
  | cons id slot ih =>
      have rest_finite (other : NodeId) (other_mem : other ∈ slot) :=
        finite other (List.mem_cons_of_mem id other_mem)
      rw [List.nodup_cons] at nodup
      have disjoint := Set.disjoint_left.mpr fun tree => notMem_heldBySlot shaped nodup.1
      rw [heldBySlot_cons, Set.ncard_union_eq disjoint (finite id List.mem_cons_self)
        (heldBySlot_finite rest_finite), ih nodup.2 rest_finite]
      simp [numberIn, numberAt]

theorem ncard_heldBySlots (shaped : Shaped nodes) {slots : List (List NodeId)}
    (nodup : ∀ slot ∈ slots, slot.Nodup)
    (finite : ∀ slot ∈ slots, ∀ id ∈ slot, (held nodes id).Finite) :
    (heldBySlots nodes slots).ncard = (slots.map (numberIn nodes)).prod := by
  induction slots with
  | nil => simp
  | cons slot slots ih =>
      have injective : Function.Injective
          fun filled : Tree V × List (Tree V) => filled.1 :: filled.2 := by
        rintro ⟨firstTree, firstTrees⟩ ⟨secondTree, secondTrees⟩ same
        simpa using same
      rw [heldBySlots_cons, Set.ncard_image_of_injective _ injective, Set.ncard_prod,
        ncard_heldBySlot shaped (nodup slot List.mem_cons_self) (finite slot List.mem_cons_self),
        ih (fun other other_mem => nodup other (List.mem_cons_of_mem slot other_mem))
          (fun other other_mem => finite other (List.mem_cons_of_mem slot other_mem))]
      simp

/-- The number of trees at a node is the product over its slots of the sum over their nodes. -/
theorem numberAt_eq (shaped : Shaped nodes) {id : NodeId} {value : V}
    (valued : valueOf nodes id = some value) (grounded : Grounded nodes id) :
    numberAt nodes id = ((slotsOf nodes id).map (numberIn nodes)).prod := by
  have injective : Function.Injective (Tree.node value) := by
    intro first second same
    simpa using same
  rw [numberAt, held_of_valueOf valued, Set.ncard_image_of_injective _ injective]
  refine ncard_heldBySlots shaped (fun slot => shaped.slot_nodup) ?_
  intro slot slot_mem child child_mem
  exact (grounded.child (lists_iff.mpr ⟨slot, slot_mem, child_mem⟩)).held_finite

end Sets

end Forest

end Cascades
