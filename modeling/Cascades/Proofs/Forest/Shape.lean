import Cascades.Forest.Rank
import Mathlib.Logic.Relation

/-!
# The shape of forests

Whatever is asked of a forest, its nodes keep a shape: only the universal root stands for no value,
no two nodes stand for the same value, every listed node exists and is not the universal root, no
slot lists a node twice, and the nodes that nothing lists are those whose count of incoming places
is zero.

The views of a node (its value, its slots, its count of incoming places) are all that the invariant
speaks about, and each operation is described once by what it does to them.
-/

namespace Cascades

namespace Forest

variable {V : Type}

/-- The value of a node, unless it is the universal root. -/
def valueOf (nodes : Array (ForestNode V)) (id : NodeId) : Option V :=
  nodes[id]?.bind ForestNode.value

/-- The number of places that list a node. -/
def incomingOf (nodes : Array (ForestNode V)) (id : NodeId) : Nat :=
  (nodes[id]?.map ForestNode.incoming).getD 0

/-- The nodes listed in a slot of a node. -/
def slotAt (nodes : Array (ForestNode V)) (id : NodeId) (slot : Nat) : List NodeId :=
  (slotsOf nodes id).getD slot []

/-- A node is listed in a slot of another one. -/
def Lists (nodes : Array (ForestNode V)) (parent child : NodeId) : Prop :=
  ∃ slot, child ∈ slotAt nodes parent slot

/-- Some node lies below itself. -/
def Cyclic (nodes : Array (ForestNode V)) : Prop :=
  ∃ id, Relation.TransGen (Lists nodes) id id

/-- What every operation keeps of the nodes of a forest. -/
structure Shaped (nodes : Array (ForestNode V)) : Prop where
  nonempty : 0 < nodes.size
  root_value : valueOf nodes 0 = none
  root_arity : (slotsOf nodes 0).length ≤ 1
  valued : ∀ id, 0 < id → id < nodes.size → ∃ value, valueOf nodes id = some value
  distinct : ∀ first second value, valueOf nodes first = some value →
    valueOf nodes second = some value → first = second
  listed : ∀ parent child, Lists nodes parent child → 0 < child ∧ child < nodes.size
  nodup : ∀ id slot, (slotAt nodes id slot).Nodup
  incoming : ∀ id, incomingOf nodes id = 0 ↔ ∀ parent, ¬ Lists nodes parent id

section Views

variable {nodes : Array (ForestNode V)}

theorem lists_iff {parent child : NodeId} :
    Lists nodes parent child ↔ ∃ slot ∈ slotsOf nodes parent, child ∈ slot := by
  simp only [Lists, slotAt, List.getD_eq_getElem?_getD]
  constructor
  · rintro ⟨position, child_mem⟩
    cases found : (slotsOf nodes parent)[position]? with
    | none => simp [found] at child_mem
    | some slot =>
        rw [found] at child_mem
        exact ⟨slot, List.mem_of_getElem? found, child_mem⟩
  · rintro ⟨slot, slot_mem, child_mem⟩
    rcases List.mem_iff_getElem?.mp slot_mem with ⟨position, found⟩
    exact ⟨position, by simpa [found] using child_mem⟩

theorem slotsOf_eq (id : NodeId) :
    slotsOf nodes id = (nodes[id]?.map ForestNode.slots).getD [] := by
  simp only [slotsOf]
  cases nodes[id]? <;> rfl

theorem valueOf_eq_none_of_size_le {id : NodeId} (beyond : nodes.size ≤ id) :
    valueOf nodes id = none := by
  simp [valueOf, beyond]

theorem slotsOf_eq_nil_of_size_le {id : NodeId} (beyond : nodes.size ≤ id) :
    slotsOf nodes id = [] := by
  simp [slotsOf, beyond]

theorem lt_size_of_valueOf {id : NodeId} {value : V} (valued : valueOf nodes id = some value) :
    id < nodes.size := by
  rcases Nat.lt_or_ge id nodes.size with bounded | beyond
  · exact bounded
  · simp [valueOf_eq_none_of_size_le beyond] at valued

theorem getElem?_of_valueOf {id : NodeId} {value : V} (valued : valueOf nodes id = some value) :
    ∃ incoming, nodes[id]? = some ⟨some value, slotsOf nodes id, incoming⟩ := by
  rcases Option.bind_eq_some_iff.mp valued with ⟨⟨_, slots, incoming⟩, found, rfl⟩
  exact ⟨incoming, by simp [slotsOf, found]⟩

end Views

namespace Shaped

variable {nodes : Array (ForestNode V)}

theorem pos_of_valueOf (shaped : Shaped nodes) {id : NodeId} {value : V}
    (valued : valueOf nodes id = some value) : 0 < id := by
  rcases Nat.eq_zero_or_pos id with rfl | positive
  · simp [shaped.root_value] at valued
  · exact positive

theorem slot_nodup (shaped : Shaped nodes) {id : NodeId} {slot : List NodeId}
    (slot_mem : slot ∈ slotsOf nodes id) : slot.Nodup := by
  rcases List.mem_iff_getElem?.mp slot_mem with ⟨position, found⟩
  simpa [slotAt, List.getD_eq_getElem?_getD, found] using shaped.nodup id position

/-- A node that is listed by a slot stands for a value. -/
theorem listed_value (shaped : Shaped nodes) {parent child : NodeId}
    (lists : Lists nodes parent child) : ∃ value, valueOf nodes child = some value :=
  have ⟨positive, bounded⟩ := shaped.listed parent child lists
  shaped.valued child positive bounded

theorem not_lists_root (shaped : Shaped nodes) (parent : NodeId) : ¬ Lists nodes parent 0 := by
  intro lists
  exact Nat.lt_irrefl 0 (shaped.listed parent 0 lists).1

theorem empty : Shaped (Forest.empty : Forest V).nodes where
  nonempty := by simp [Forest.empty]
  root_value := rfl
  root_arity := by simp [Forest.empty, slotsOf]
  valued := by
    intro id positive bounded
    simp [Forest.empty] at bounded
    omega
  distinct := by
    intro first second value first_valued
    have bounded := lt_size_of_valueOf first_valued
    obtain rfl : first = 0 := by simpa [Forest.empty] using bounded
    simp [Forest.empty, valueOf] at first_valued
  listed := by
    intro parent child lists
    rcases lists_iff.mp lists with ⟨slot, slot_mem, -⟩
    rcases parent with _ | parent <;> simp [Forest.empty, slotsOf] at slot_mem
  nodup := by
    intro id slot
    rcases id with _ | id <;> simp [Forest.empty, slotAt, slotsOf]
  incoming := by
    intro id
    constructor
    · intro _ parent lists
      rcases lists_iff.mp lists with ⟨slot, slot_mem, -⟩
      rcases parent with _ | parent <;> simp [Forest.empty, slotsOf] at slot_mem
    · intro _
      rcases id with _ | id <;> simp [Forest.empty, incomingOf]

end Shaped

/-! ## The updates of a forest -/

section Updates

variable {forest : Forest V} {id other : NodeId} {slots : List (List NodeId)} {arity : Nat}

@[simp]
theorem size_setSlots : (forest.setSlots id slots).nodes.size = forest.nodes.size := by
  simp [setSlots]

@[simp]
theorem valueOf_setSlots :
    valueOf (forest.setSlots id slots).nodes other = valueOf forest.nodes other := by
  simp only [valueOf, setSlots, Array.getElem?_modify]
  split <;> cases forest.nodes[other]? <;> rfl

@[simp]
theorem incomingOf_setSlots :
    incomingOf (forest.setSlots id slots).nodes other = incomingOf forest.nodes other := by
  simp only [incomingOf, setSlots, Array.getElem?_modify]
  split <;> cases forest.nodes[other]? <;> rfl

theorem slotsOf_setSlots_self (bounded : id < forest.nodes.size) :
    slotsOf (forest.setSlots id slots).nodes id = slots := by
  simp only [slotsOf_eq, setSlots, Array.getElem?_modify]
  simp [bounded]

theorem slotsOf_setSlots_of_ne (distinct : other ≠ id) :
    slotsOf (forest.setSlots id slots).nodes other = slotsOf forest.nodes other := by
  simp [slotsOf_eq, setSlots, Array.getElem?_modify, distinct.symm]

@[simp]
theorem size_ensureSlots : (forest.ensureSlots id arity).nodes.size = forest.nodes.size := by
  simp only [ensureSlots]
  split <;> simp

@[simp]
theorem valueOf_ensureSlots :
    valueOf (forest.ensureSlots id arity).nodes other = valueOf forest.nodes other := by
  simp only [ensureSlots]
  split <;> simp

@[simp]
theorem incomingOf_ensureSlots :
    incomingOf (forest.ensureSlots id arity).nodes other = incomingOf forest.nodes other := by
  simp only [ensureSlots]
  split <;> simp

theorem slotsOf_ensureSlots_self (bounded : id < forest.nodes.size) :
    slotsOf (forest.ensureSlots id arity).nodes id =
      slotsOf forest.nodes id ++
        List.replicate (arity - (slotsOf forest.nodes id).length) [] := by
  simp only [ensureSlots]
  split
  · exact slotsOf_setSlots_self bounded
  · rename_i wide
    rw [Nat.sub_eq_zero_of_le (Nat.le_of_not_lt wide)]
    simp

theorem slotsOf_ensureSlots_of_ne (distinct : other ≠ id) :
    slotsOf (forest.ensureSlots id arity).nodes other = slotsOf forest.nodes other := by
  simp only [ensureSlots]
  split
  · exact slotsOf_setSlots_of_ne distinct
  · rfl

/-- Empty slots at the end list nothing. -/
theorem getD_append_replicate_nil (slots : List (List NodeId)) (count position : Nat) :
    (slots ++ List.replicate count []).getD position [] = slots.getD position [] := by
  simp only [List.getD_eq_getElem?_getD, List.getElem?_append, List.getElem?_replicate]
  split
  · rfl
  · rename_i beyond
    rw [List.getElem?_eq_none (Nat.le_of_not_lt beyond)]
    split <;> rfl

@[simp]
theorem slotAt_ensureSlots (position : Nat) :
    slotAt (forest.ensureSlots id arity).nodes other position =
      slotAt forest.nodes other position := by
  by_cases same : other = id
  · subst same
    by_cases bounded : other < forest.nodes.size
    · rw [slotAt, slotsOf_ensureSlots_self bounded]
      exact getD_append_replicate_nil ..
    · have beyond := Nat.le_of_not_lt bounded
      rw [slotAt, slotAt, slotsOf_eq_nil_of_size_le (by simpa using beyond),
        slotsOf_eq_nil_of_size_le beyond]
  · rw [slotAt, slotAt, slotsOf_ensureSlots_of_ne same]

variable {parent child : NodeId} {slot : Nat}

theorem link_of_mem (child_mem : child ∈ slotAt forest.nodes parent slot) :
    forest.link parent slot child = forest := by
  rw [slotAt] at child_mem
  simp only [link]
  rw [if_pos (by simpa using child_mem)]

/-- What linking a node that is not listed yet makes of the nodes. -/
theorem nodes_link_of_notMem (child_notMem : child ∉ slotAt forest.nodes parent slot) :
    (forest.link parent slot child).nodes =
      ((forest.ensureSlots parent (slot + 1)).setSlots parent
        ((slotsOf (forest.ensureSlots parent (slot + 1)).nodes parent).modify slot
          (· ++ [child]))).nodes.modify child
        fun node => { node with incoming := node.incoming + 1 } := by
  rw [slotAt] at child_notMem
  simp only [link]
  rw [if_neg (by simpa using child_notMem)]

@[simp]
theorem size_link : (forest.link parent slot child).nodes.size = forest.nodes.size := by
  by_cases child_mem : child ∈ slotAt forest.nodes parent slot
  · rw [link_of_mem child_mem]
  · simp [nodes_link_of_notMem child_mem]

section Incoming

variable {nodes : Array (ForestNode V)}

theorem valueOf_modify_incoming :
    valueOf (nodes.modify id fun node => { node with incoming := node.incoming + 1 }) other =
      valueOf nodes other := by
  simp only [valueOf, Array.getElem?_modify]
  split <;> cases nodes[other]? <;> rfl

theorem slotsOf_modify_incoming :
    slotsOf (nodes.modify id fun node => { node with incoming := node.incoming + 1 }) other =
      slotsOf nodes other := by
  simp only [slotsOf_eq, Array.getElem?_modify]
  split <;> cases nodes[other]? <;> rfl

theorem incomingOf_modify_incoming (bounded : id < nodes.size) :
    incomingOf (nodes.modify id fun node => { node with incoming := node.incoming + 1 }) other =
      if other = id then incomingOf nodes other + 1 else incomingOf nodes other := by
  simp only [incomingOf, Array.getElem?_modify]
  by_cases same : id = other
  · subst same
    simp [bounded]
  · rw [if_neg same, if_neg (Ne.symm same)]

end Incoming

@[simp]
theorem valueOf_link :
    valueOf (forest.link parent slot child).nodes other = valueOf forest.nodes other := by
  by_cases child_mem : child ∈ slotAt forest.nodes parent slot
  · rw [link_of_mem child_mem]
  · simp [nodes_link_of_notMem child_mem, valueOf_modify_incoming]

theorem incomingOf_link_of_notMem (child_notMem : child ∉ slotAt forest.nodes parent slot)
    (bounded : child < forest.nodes.size) :
    incomingOf (forest.link parent slot child).nodes other =
      if other = child then incomingOf forest.nodes other + 1
      else incomingOf forest.nodes other := by
  rw [nodes_link_of_notMem child_notMem, incomingOf_modify_incoming (by simpa using bounded)]
  simp

theorem slotsOf_link_of_notMem (child_notMem : child ∉ slotAt forest.nodes parent slot)
    (bounded : parent < forest.nodes.size) :
    slotsOf (forest.link parent slot child).nodes parent =
      (slotsOf (forest.ensureSlots parent (slot + 1)).nodes parent).modify slot
        (· ++ [child]) := by
  rw [nodes_link_of_notMem child_notMem, slotsOf_modify_incoming,
    slotsOf_setSlots_self (by simpa using bounded)]

theorem slotsOf_link_of_ne (distinct : other ≠ parent) :
    slotsOf (forest.link parent slot child).nodes other = slotsOf forest.nodes other := by
  by_cases child_mem : child ∈ slotAt forest.nodes parent slot
  · rw [link_of_mem child_mem]
  · rw [nodes_link_of_notMem child_mem, slotsOf_modify_incoming, slotsOf_setSlots_of_ne distinct,
      slotsOf_ensureSlots_of_ne distinct]

/-- Linking lists the child at the end of the slot and leaves all other slots alone. -/
theorem slotAt_link_of_notMem (child_notMem : child ∉ slotAt forest.nodes parent slot)
    (bounded : parent < forest.nodes.size) (position : Nat) :
    slotAt (forest.link parent slot child).nodes other position =
      if other = parent ∧ position = slot then slotAt forest.nodes parent slot ++ [child]
      else slotAt forest.nodes other position := by
  by_cases same : other = parent
  · subst same
    have widened (position : Nat) : slotAt forest.nodes other position =
        (slotsOf (forest.ensureSlots other (slot + 1)).nodes other).getD position [] :=
      (slotAt_ensureSlots position).symm
    rw [widened slot, widened position, slotAt, slotsOf_link_of_notMem child_notMem bounded]
    have wide : slot < (slotsOf (forest.ensureSlots other (slot + 1)).nodes other).length := by
      rw [slotsOf_ensureSlots_self bounded]
      simp
      omega
    simp only [List.getD_eq_getElem?_getD, List.getElem?_modify]
    by_cases here : position = slot
    · subst here
      simp [wide]
    · simp [here, Ne.symm here]
  · rw [if_neg (by simp [same]), slotAt, slotAt, slotsOf_link_of_ne same]

theorem lists_link (child_notMem : child ∉ slotAt forest.nodes parent slot)
    (bounded : parent < forest.nodes.size) {listed : NodeId} :
    Lists (forest.link parent slot child).nodes other listed ↔
      Lists forest.nodes other listed ∨ (other = parent ∧ listed = child) := by
  simp only [Lists, slotAt_link_of_notMem child_notMem bounded]
  constructor
  · rintro ⟨position, listed_mem⟩
    split at listed_mem
    · rename_i here
      simp only [List.mem_append, List.mem_singleton] at listed_mem
      rcases listed_mem with old | new
      · exact .inl ⟨slot, here.1 ▸ old⟩
      · exact .inr ⟨here.1, new⟩
    · exact .inl ⟨position, listed_mem⟩
  · rintro (⟨position, listed_mem⟩ | ⟨rfl, rfl⟩)
    · refine ⟨position, ?_⟩
      split
      · rename_i here
        rcases here with ⟨rfl, rfl⟩
        exact List.mem_append_left _ listed_mem
      · exact listed_mem
    · exact ⟨slot, by simp⟩

theorem length_slotsOf_link (child_notMem : child ∉ slotAt forest.nodes parent slot)
    (bounded : parent < forest.nodes.size) :
    (slotsOf (forest.link parent slot child).nodes parent).length =
      max (slotsOf forest.nodes parent).length (slot + 1) := by
  rw [slotsOf_link_of_notMem child_notMem bounded, slotsOf_ensureSlots_self bounded]
  simp
  omega

end Updates

namespace Shaped

variable {forest : Forest V} {parent child id : NodeId} {slot arity : Nat}

/-- Declaring slots keeps the shape. The universal root is never declared any. -/
theorem ensureSlots (shaped : Shaped forest.nodes) (positive : 0 < id) :
    Shaped (forest.ensureSlots id arity).nodes where
  nonempty := by simpa using shaped.nonempty
  root_value := by simpa using shaped.root_value
  root_arity := by
    rw [slotsOf_ensureSlots_of_ne (Nat.ne_of_lt positive)]
    exact shaped.root_arity
  valued := by simpa using shaped.valued
  distinct := by simpa using shaped.distinct
  listed := by simpa [Lists] using shaped.listed
  nodup := by simpa using shaped.nodup
  incoming := by simpa [Lists] using shaped.incoming

/-- Listing a value keeps the shape. Only the first slot of the universal root lists any. -/
theorem link (shaped : Shaped forest.nodes) (parent_lt : parent < forest.nodes.size)
    (child_pos : 0 < child) (child_lt : child < forest.nodes.size)
    (root_slot : parent = 0 → slot = 0) : Shaped (forest.link parent slot child).nodes := by
  by_cases child_mem : child ∈ slotAt forest.nodes parent slot
  · rwa [link_of_mem child_mem]
  · refine ⟨by simpa using shaped.nonempty, by simpa using shaped.root_value, ?_,
      by simpa using shaped.valued, by simpa using shaped.distinct, ?_, ?_, ?_⟩
    · by_cases root : parent = 0
      · subst root
        rw [length_slotsOf_link child_mem parent_lt, root_slot rfl]
        exact Nat.max_le.mpr ⟨shaped.root_arity, Nat.le_refl 1⟩
      · rw [slotsOf_link_of_ne (Ne.symm root)]
        exact shaped.root_arity
    · intro other listed lists
      rw [size_link]
      rcases (lists_link child_mem parent_lt).mp lists with old | ⟨-, rfl⟩
      · exact shaped.listed other listed old
      · exact ⟨child_pos, child_lt⟩
    · intro other position
      rw [slotAt_link_of_notMem child_mem parent_lt]
      split
      · refine List.nodup_append.mpr ⟨shaped.nodup parent slot, by simp, ?_⟩
        intro listed listed_mem other other_mem same
        rw [List.mem_singleton] at other_mem
        exact child_mem (other_mem ▸ same ▸ listed_mem)
      · exact shaped.nodup other position
    · intro listed
      rw [incomingOf_link_of_notMem child_mem child_lt]
      simp only [lists_link child_mem parent_lt]
      split
      · rename_i same
        refine ⟨fun none => by omega, fun unlisted => ?_⟩
        exact (unlisted parent (.inr ⟨rfl, same⟩)).elim
      · rename_i different
        simpa [different] using shaped.incoming listed

variable [DecidableEq V]

theorem find?_eq_some_iff (shaped : Shaped forest.nodes) {value : V} :
    forest.find? value = some id ↔ valueOf forest.nodes id = some value := by
  simp only [find?, Array.findIdx?_eq_some_iff_getElem, beq_iff_eq]
  constructor
  · rintro ⟨bounded, found, -⟩
    simpa [valueOf, bounded] using found
  · intro valued
    have bounded := lt_size_of_valueOf valued
    refine ⟨bounded, by simpa [valueOf, bounded] using valued, ?_⟩
    intro other earlier found
    have same : other = id := shaped.distinct other id value
      (by simpa [valueOf, Nat.lt_trans earlier bounded] using found) valued
    exact Nat.lt_irrefl id (same ▸ earlier)

theorem valueOf_ne_of_find? {value : V} (missing : forest.find? value = none) (id : NodeId) :
    valueOf forest.nodes id ≠ some value := by
  simp only [find?, Array.findIdx?_eq_none_iff, beq_eq_false_iff_ne] at missing
  intro valued
  have bounded := lt_size_of_valueOf valued
  have found : forest.nodes[id].value = some value := by simpa [valueOf, bounded] using valued
  exact missing forest.nodes[id] (Array.getElem_mem bounded) found

end Shaped

/-! ## New values -/

section Push

variable {nodes : Array (ForestNode V)} {value : V} {id : NodeId}

theorem valueOf_push : valueOf (nodes.push ⟨some value, [], 0⟩) id =
    if id = nodes.size then some value else valueOf nodes id := by
  simp only [valueOf, Array.getElem?_push]
  split <;> rfl

theorem incomingOf_push :
    incomingOf (nodes.push ⟨some value, [], 0⟩) id = incomingOf nodes id := by
  simp only [incomingOf, Array.getElem?_push]
  split
  · rename_i same
    subst same
    simp
  · rfl

theorem slotsOf_push : slotsOf (nodes.push ⟨some value, [], 0⟩) id = slotsOf nodes id := by
  simp only [slotsOf_eq, Array.getElem?_push]
  split
  · rename_i same
    subst same
    simp
  · rfl

theorem lists_push {child : NodeId} :
    Lists (nodes.push ⟨some value, [], 0⟩) id child ↔ Lists nodes id child := by
  simp only [Lists, slotAt, slotsOf_push]

end Push

namespace Shaped

variable {forest : Forest V} {id : NodeId}

/-- A node for a new value keeps the shape. -/
theorem push {nodes : Array (ForestNode V)} {value : V} (shaped : Shaped nodes)
    (fresh : ∀ id, valueOf nodes id ≠ some value) :
    Shaped (nodes.push ⟨some value, [], 0⟩) where
  nonempty := by simp
  root_value := by
    rw [valueOf_push, if_neg (Nat.ne_of_lt shaped.nonempty)]
    exact shaped.root_value
  root_arity := by simpa [slotsOf_push] using shaped.root_arity
  valued := by
    intro id positive bounded
    rw [valueOf_push]
    split
    · exact ⟨value, rfl⟩
    · rename_i old
      rw [Array.size_push] at bounded
      exact shaped.valued id positive (Nat.lt_of_le_of_ne (Nat.le_of_lt_succ bounded) old)
  distinct := by
    intro first second other first_valued second_valued
    rw [valueOf_push] at first_valued second_valued
    split at first_valued <;> split at second_valued
    · simp_all
    · cases first_valued
      exact (fresh second second_valued).elim
    · cases second_valued
      exact (fresh first first_valued).elim
    · exact shaped.distinct first second other first_valued second_valued
  listed := by
    intro parent child lists
    have bounds := shaped.listed parent child (lists_push.mp lists)
    rw [Array.size_push]
    exact ⟨bounds.1, Nat.lt_succ_of_lt bounds.2⟩
  nodup := by
    intro id slot
    rw [slotAt, slotsOf_push]
    exact shaped.nodup id slot
  incoming := by simpa [incomingOf_push, lists_push] using shaped.incoming

variable [DecidableEq V] {value other : V}

theorem intern (shaped : Shaped forest.nodes) (value : V) :
    Shaped (forest.intern value).1.nodes := by
  rw [Forest.intern]
  split
  · exact shaped
  · rename_i missing
    exact shaped.push (valueOf_ne_of_find? missing)

theorem valueOf_intern (shaped : Shaped forest.nodes) (value : V) :
    valueOf (forest.intern value).1.nodes (forest.intern value).2 = some value := by
  rw [Forest.intern]
  split
  · rename_i found
    exact shaped.find?_eq_some_iff.mp found
  · simp [valueOf_push]

theorem valueOf_intern_of_valueOf (valued : valueOf forest.nodes id = some other) :
    valueOf (forest.intern value).1.nodes id = some other := by
  rw [Forest.intern]
  split
  · exact valued
  · rw [valueOf_push, if_neg (Nat.ne_of_lt (lt_size_of_valueOf valued))]
    exact valued

theorem insertNode (shaped : Shaped forest.nodes) (arity : Nat) :
    Shaped (forest.insertNode value arity).nodes :=
  (shaped.intern value).ensureSlots
    ((shaped.intern value).pos_of_valueOf (shaped.valueOf_intern value))

theorem insertEdge? (shaped : Shaped forest.nodes) {slot : Nat} {extended : Forest V}
    (accepted : forest.insertEdge? value slot other = some extended) : Shaped extended.nodes := by
  rw [Forest.insertEdge?] at accepted
  split at accepted
  · cases accepted
  · cases accepted
    have both_shaped := (shaped.intern value).intern other
    have parent_valued : valueOf ((forest.intern value).1.intern other).1.nodes
        (forest.intern value).2 = some value :=
      valueOf_intern_of_valueOf (shaped.valueOf_intern value)
    have child_valued := (shaped.intern value).valueOf_intern other
    have parent_pos := both_shaped.pos_of_valueOf parent_valued
    exact both_shaped.link (lt_size_of_valueOf parent_valued)
      (both_shaped.pos_of_valueOf child_valued) (lt_size_of_valueOf child_valued)
      fun root => (Nat.ne_of_gt parent_pos root).elim

theorem insertRoot (shaped : Shaped forest.nodes) : Shaped (forest.insertRoot value).nodes :=
  (shaped.intern value).link (shaped.intern value).nonempty
    ((shaped.intern value).pos_of_valueOf (shaped.valueOf_intern value))
    (lt_size_of_valueOf (shaped.valueOf_intern value)) fun _ => rfl

end Shaped

end Forest

end Cascades
