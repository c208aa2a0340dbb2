import Cascades.Proofs.Forest.Trees

/-!
# Where trees start

The trees of a forest start from the nodes that the universal root lists and from the orphans, the
nodes of values that nothing lists. Adopting the orphans lists them at the universal root behind the
nodes that are there already, and changes nothing below it: the nodes that trees start from, the
trees of every node and the cycles stay the same.
-/

namespace Cascades

namespace Forest

variable {V : Type}

/-- The nodes that a tree may start from, in the order in which trees are ranked. -/
def starts (forest : Forest V) : List NodeId :=
  slotAt forest.nodes 0 0 ++ forest.orphans

/-- The trees of a forest. -/
def trees (forest : Forest V) : Set (Tree V) :=
  heldBySlot forest.nodes forest.starts

theorem mem_valueNodes {forest : Forest V} (shaped : Shaped forest.nodes) {id : NodeId} :
    id ∈ forest.valueNodes ↔ ∃ value, valueOf forest.nodes id = some value := by
  simp only [valueNodes, size, List.mem_range'_1]
  have nonempty := shaped.nonempty
  constructor
  · rintro ⟨positive, bounded⟩
    rw [Nat.add_sub_cancel' nonempty] at bounded
    exact shaped.valued id positive bounded
  · rintro ⟨value, valued⟩
    rw [Nat.add_sub_cancel' nonempty]
    exact ⟨shaped.pos_of_valueOf valued, lt_size_of_valueOf valued⟩

theorem mem_orphans {forest : Forest V} (shaped : Shaped forest.nodes) {id : NodeId} :
    id ∈ forest.orphans ↔ (∃ value, valueOf forest.nodes id = some value) ∧
      ∀ parent, ¬ Lists forest.nodes parent id := by
  simp only [orphans, List.mem_filter, mem_valueNodes shaped]
  refine and_congr_right ?_
  rintro ⟨value, valued⟩
  rw [← shaped.incoming id, incomingOf, Array.getElem?_eq_getElem (lt_size_of_valueOf valued)]
  simp

theorem orphans_nodup (forest : Forest V) : forest.orphans.Nodup :=
  List.Pairwise.filter _ List.nodup_range'

/-- A tree starts from a node listed at the universal root, or from one that nothing lists. -/
theorem mem_starts {forest : Forest V} (shaped : Shaped forest.nodes) {id : NodeId} :
    id ∈ forest.starts ↔ Lists forest.nodes 0 id ∨
      ((∃ value, valueOf forest.nodes id = some value) ∧
        ∀ parent, ¬ Lists forest.nodes parent id) := by
  rw [starts, List.mem_append, mem_orphans shaped]
  refine or_congr_left ⟨fun id_mem => ⟨0, id_mem⟩, ?_⟩
  rintro ⟨slot, id_mem⟩
  cases slot with
  | zero => exact id_mem
  | succ slot =>
      have beyond : (slotsOf forest.nodes 0)[slot + 1]? = none :=
        List.getElem?_eq_none (Nat.le_trans shaped.root_arity (Nat.le_add_left 1 slot))
      simp [slotAt, List.getD_eq_getElem?_getD, beyond] at id_mem

theorem starts_nodup {forest : Forest V} (shaped : Shaped forest.nodes) :
    forest.starts.Nodup := by
  refine List.nodup_append.mpr ⟨shaped.nodup 0 0, forest.orphans_nodup, ?_⟩
  rintro listed listed_mem orphan orphan_mem rfl
  exact ((mem_orphans shaped).mp orphan_mem).2 0 ⟨0, listed_mem⟩

theorem valueOf_of_mem_starts {forest : Forest V} (shaped : Shaped forest.nodes) {id : NodeId}
    (id_mem : id ∈ forest.starts) : ∃ value, valueOf forest.nodes id = some value := by
  rcases (mem_starts shaped).mp id_mem with lists | ⟨valued, -⟩
  · exact shaped.listed_value lists
  · exact valued

/-! ## Below the universal root -/

/-- Two lists of nodes differ at the slots of the universal root at most. -/
structure SameBelow (nodes others : Array (ForestNode V)) : Prop where
  values : ∀ id, valueOf others id = valueOf nodes id
  slots : ∀ id, id ≠ 0 → slotsOf others id = slotsOf nodes id

namespace SameBelow

variable {nodes others : Array (ForestNode V)}

theorem refl (nodes : Array (ForestNode V)) : SameBelow nodes nodes :=
  ⟨fun _ => rfl, fun _ _ => rfl⟩

theorem symm (same : SameBelow nodes others) : SameBelow others nodes :=
  ⟨fun id => (same.values id).symm, fun id inner => (same.slots id inner).symm⟩

mutual

theorem holdsTree (same : SameBelow nodes others) (root : valueOf nodes 0 = none) {id : NodeId} :
    (tree : Tree V) → HoldsTree nodes id tree → HoldsTree others id tree
  | .node value children, ⟨valued, holds⟩ => by
      have inner : id ≠ 0 := by
        rintro rfl
        simp [root] at valued
      refine ⟨(same.values id).trans valued, ?_⟩
      rw [same.slots id inner]
      exact same.holdsTrees root (slotsOf nodes id) children holds

theorem holdsTrees (same : SameBelow nodes others) (root : valueOf nodes 0 = none) :
    (slots : List (List NodeId)) → (trees : List (Tree V)) → HoldsTrees nodes slots trees →
      HoldsTrees others slots trees
  | [], [], _ => trivial
  | _ :: slots, tree :: trees, ⟨⟨id, id_mem, holds⟩, rest⟩ =>
      ⟨⟨id, id_mem, same.holdsTree root tree holds⟩, same.holdsTrees root slots trees rest⟩

end

theorem held_eq (same : SameBelow nodes others) (shaped : Shaped nodes) (id : NodeId) :
    held others id = held nodes id := by
  have root : valueOf others 0 = none := (same.values 0).trans shaped.root_value
  ext tree
  exact ⟨same.symm.holdsTree root tree, same.holdsTree shaped.root_value tree⟩

theorem transGen (same : SameBelow nodes others) (shaped : Shaped nodes) {ancestor id : NodeId}
    (inner : ancestor ≠ 0) (path : Relation.TransGen (Lists nodes) ancestor id) :
    Relation.TransGen (Lists others) ancestor id := by
  have step {parent child : NodeId} (parent_inner : parent ≠ 0)
      (lists : Lists nodes parent child) : Lists others parent child := by
    rcases lists with ⟨slot, child_mem⟩
    refine ⟨slot, ?_⟩
    rwa [slotAt, same.slots parent parent_inner]
  induction path with
  | single lists => exact .single (step inner lists)
  | @tail parent child path lists ih =>
      refine ih.tail (step ?_ lists)
      rintro rfl
      rcases Relation.TransGen.tail'_iff.mp path with ⟨last, -, into⟩
      exact shaped.not_lists_root last into

theorem cyclic (same : SameBelow nodes others) (shaped : Shaped nodes)
    (cyclic : Cyclic nodes) : Cyclic others := by
  rcases cyclic with ⟨id, loop⟩
  refine ⟨id, same.transGen shaped ?_ loop⟩
  rintro rfl
  rcases Relation.TransGen.tail'_iff.mp loop with ⟨last, -, into⟩
  exact shaped.not_lists_root last into

theorem grounded (same : SameBelow nodes others)
    (shaped : Shaped nodes) {id : NodeId} (inner : id ≠ 0) (grounded : Grounded others id) :
    Grounded nodes id := by
  induction grounded with
  | intro id _ ih =>
      refine Acc.intro id ?_
      intro child lists
      refine ih child ?_ (Nat.ne_of_gt (shaped.listed id child lists).1)
      rcases lists with ⟨slot, child_mem⟩
      exact ⟨slot, by rwa [slotAt, same.slots id inner]⟩

end SameBelow

/-! ## Adopting the orphans -/

/-- What listing nodes at the universal root makes of a forest. -/
structure Adopts (before after : Forest V) (ids : List NodeId) : Prop where
  shaped : Shaped after.nodes
  size : after.nodes.size = before.nodes.size
  below : SameBelow before.nodes after.nodes
  root : slotAt after.nodes 0 0 = slotAt before.nodes 0 0 ++ ids
  tallies : after.tallies = before.tallies
  changed : after = before ∨ after.stale = true

@[simp]
theorem tallies_link {forest : Forest V} {parent child : NodeId} {slot : Nat} :
    (forest.link parent slot child).tallies = forest.tallies := by
  simp only [link, setSlots, ensureSlots]
  split
  · rfl
  · split <;> rfl

theorem link_eq_or_stale {forest : Forest V} {parent child : NodeId} {slot : Nat} :
    forest.link parent slot child = forest ∨ (forest.link parent slot child).stale = true := by
  simp only [link, setSlots]
  split
  · exact .inl rfl
  · exact .inr rfl

theorem adopts_foldl {forest : Forest V} (shaped : Shaped forest.nodes) {ids : List NodeId}
    (nodup : ids.Nodup) (valued : ∀ id ∈ ids, 0 < id ∧ id < forest.nodes.size)
    (unlisted : ∀ id ∈ ids, id ∉ slotAt forest.nodes 0 0) :
    Adopts forest (ids.foldl (fun forest id => forest.link 0 0 id) forest) ids := by
  induction ids generalizing forest with
  | nil => exact ⟨shaped, rfl, .refl _, by simp, rfl, .inl rfl⟩
  | cons id ids ih =>
      rw [List.nodup_cons] at nodup
      have id_valued := valued id List.mem_cons_self
      have id_unlisted := unlisted id List.mem_cons_self
      have root_link : slotAt (forest.link 0 0 id).nodes 0 0 = slotAt forest.nodes 0 0 ++ [id] := by
        rw [slotAt_link_of_notMem id_unlisted shaped.nonempty, if_pos ⟨rfl, rfl⟩]
      have rest := ih
        (shaped.link shaped.nonempty id_valued.1 id_valued.2 fun _ => rfl) nodup.2
        (fun other other_mem => by
          simpa using valued other (List.mem_cons_of_mem id other_mem))
        (fun other other_mem => by
          rw [root_link, List.mem_append, List.mem_singleton]
          rintro (listed | rfl)
          · exact unlisted other (List.mem_cons_of_mem id other_mem) listed
          · exact nodup.1 other_mem)
      rw [List.foldl_cons]
      refine ⟨rest.shaped, by simp [rest.size], ⟨?_, ?_⟩, ?_, by simp [rest.tallies], ?_⟩
      · intro other
        simp [rest.below.values]
      · intro other inner
        rw [rest.below.slots other inner, slotsOf_link_of_ne inner]
      · simp [rest.root, root_link]
      · rcases rest.changed with same | stale
        · rw [same]
          exact link_eq_or_stale
        · exact .inr stale

theorem adopts_adoptOrphans {forest : Forest V} (shaped : Shaped forest.nodes) :
    Adopts forest forest.adoptOrphans forest.orphans := by
  refine adopts_foldl shaped forest.orphans_nodup ?_ ?_
  · intro id id_mem
    rcases ((mem_orphans shaped).mp id_mem).1 with ⟨value, valued⟩
    exact ⟨shaped.pos_of_valueOf valued, lt_size_of_valueOf valued⟩
  · intro id id_mem listed
    exact ((mem_orphans shaped).mp id_mem).2 0 ⟨0, listed⟩

/-- After the orphans are adopted the universal root lists all nodes that trees start from. -/
theorem slotAt_adoptOrphans {forest : Forest V} (shaped : Shaped forest.nodes) :
    slotAt forest.adoptOrphans.nodes 0 0 = forest.starts :=
  (adopts_adoptOrphans shaped).root

theorem orphans_adoptOrphans {forest : Forest V} (shaped : Shaped forest.nodes) :
    forest.adoptOrphans.orphans = [] := by
  have adopts := adopts_adoptOrphans shaped
  rw [List.eq_nil_iff_forall_not_mem]
  intro id id_mem
  rcases (mem_orphans adopts.shaped).mp id_mem with ⟨valued, unlisted⟩
  by_cases root : Lists forest.nodes 0 id
  · refine unlisted 0 ⟨0, ?_⟩
    rw [adopts.root, ← starts]
    exact (mem_starts shaped).mpr (.inl root)
  · refine unlisted 0 ⟨0, ?_⟩
    rw [adopts.root, ← starts]
    refine (mem_starts shaped).mpr (.inr ⟨by simpa [adopts.below.values] using valued, ?_⟩)
    intro parent lists
    by_cases same : parent = 0
    · exact root (same ▸ lists)
    · rcases lists with ⟨slot, id_mem⟩
      refine unlisted parent ⟨slot, ?_⟩
      rwa [slotAt, adopts.below.slots parent same]

theorem starts_adoptOrphans {forest : Forest V} (shaped : Shaped forest.nodes) :
    forest.adoptOrphans.starts = forest.starts := by
  rw [starts, orphans_adoptOrphans shaped, slotAt_adoptOrphans shaped, List.append_nil]

theorem trees_adoptOrphans {forest : Forest V} (shaped : Shaped forest.nodes) :
    forest.adoptOrphans.trees = forest.trees := by
  have same := (adopts_adoptOrphans shaped).below
  ext tree
  have holds_iff (id : NodeId) : HoldsTree forest.adoptOrphans.nodes id tree ↔
      HoldsTree forest.nodes id tree :=
    ⟨same.symm.holdsTree ((same.values 0).trans shaped.root_value) tree,
      same.holdsTree shaped.root_value tree⟩
  simp only [trees, heldBySlot, starts_adoptOrphans shaped, Set.mem_ofPred_eq, holds_iff]

theorem cyclic_adoptOrphans {forest : Forest V} (shaped : Shaped forest.nodes) :
    Cyclic forest.adoptOrphans.nodes ↔ Cyclic forest.nodes :=
  have adopts := adopts_adoptOrphans shaped
  ⟨adopts.below.symm.cyclic adopts.shaped, adopts.below.cyclic shaped⟩

end Forest

end Cascades
