import Cascades.Proofs.Forest.Reached

/-!
# What a forest holds

For whoever fills a forest its nodes do not matter, only the values: which values it has, with which
of them trees may start, which values are listed in the slots of a value, and how many slots a value
has. Each insertion changes this in one way.
-/

namespace Cascades

namespace Forest

variable {V : Type}

/-- The values of a forest, without their nodes. -/
structure Content (V : Type) where
  has : V → Prop
  starts : V → Prop
  fills : V → Nat → V → Prop
  arity : V → Nat

/-- The nodes of a forest stand for values. -/
structure Shows (forest : Forest V) (content : Content V) : Prop where
  shaped : Shaped forest.nodes
  has : ∀ value, content.has value ↔ ∃ id, valueOf forest.nodes id = some value
  starts : ∀ value, content.starts value ↔
    ∃ id, valueOf forest.nodes id = some value ∧ id ∈ slotAt forest.nodes 0 0
  fills : ∀ parent slot child, content.fills parent slot child ↔
    ∃ id other, valueOf forest.nodes id = some parent ∧ valueOf forest.nodes other = some child ∧
      other ∈ slotAt forest.nodes id slot
  arity : ∀ {id value}, valueOf forest.nodes id = some value →
    (slotsOf forest.nodes id).length = content.arity value
  unknown : ∀ {value}, ¬ content.has value → content.arity value = 0

namespace Content

/-- Nothing has been inserted. -/
def none : Content V :=
  ⟨fun _ => False, fun _ => False, fun _ _ _ => False, fun _ => 0⟩

/-- The content with some more values. -/
def add (content : Content V) (values : List V) : Content V :=
  { content with has := fun other => content.has other ∨ other ∈ values }

/-- The content in which trees may also start with the given values. -/
def start (content : Content V) (values : List V) : Content V :=
  { content with starts := fun other => content.starts other ∨ other ∈ values }

/-- The content in which the given values are listed in a slot of a value. -/
def fill (content : Content V) (parent : V) (slot : Nat) (values : List V) : Content V :=
  { content with
    fills := fun other position listed => content.fills other position listed ∨
      (other = parent ∧ position = slot ∧ listed ∈ values) }

/-- The content in which a value has at least the given number of slots. -/
def declare [DecidableEq V] (content : Content V) (value : V) (count : Nat) : Content V :=
  { content with
    arity := Function.update content.arity value (max (content.arity value) count) }

theorem declare_of_le [DecidableEq V] {content : Content V} {value : V} {count : Nat}
    (present : count ≤ content.arity value) (other : V) :
    (content.declare value count).arity other = content.arity other := by
  simp only [declare, Nat.max_eq_left present, Function.update_eq_self]

end Content

namespace Shows

variable {forest : Forest V} {content other : Content V}

theorem congr (shows : forest.Shows content) (has : ∀ value, other.has value ↔ content.has value)
    (starts : ∀ value, other.starts value ↔ content.starts value)
    (fills : ∀ parent slot child, other.fills parent slot child ↔ content.fills parent slot child)
    (arity : ∀ value, other.arity value = content.arity value) : forest.Shows other where
  shaped := shows.shaped
  has := fun value => (has value).trans (shows.has value)
  starts := fun value => (starts value).trans (shows.starts value)
  fills := fun parent slot child => (fills parent slot child).trans (shows.fills parent slot child)
  arity := fun valued => (shows.arity valued).trans (arity _).symm
  unknown := fun missing => (arity _).trans (shows.unknown fun held => missing ((has _).mpr held))

theorem empty : (Forest.empty : Forest V).Shows .none where
  shaped := .empty
  has := by
    intro value
    refine ⟨fun held => held.elim, ?_⟩
    rintro ⟨_ | id, valued⟩ <;> simp [Forest.empty, valueOf] at valued
  starts := by
    intro value
    refine ⟨fun held => held.elim, ?_⟩
    rintro ⟨id, -, listed⟩
    simp [Forest.empty, slotAt, slotsOf] at listed
  fills := by
    intro parent slot child
    refine ⟨fun held => held.elim, ?_⟩
    rintro ⟨_ | id, other, -, -, listed⟩ <;> simp [Forest.empty, slotAt, slotsOf] at listed
  arity := by
    rintro (_ | id) value valued <;> simp [Forest.empty, valueOf] at valued
  unknown := fun _ => rfl

/-- A tree may start from a value that is there. -/
theorem linkRoot (shows : forest.Shows content) {id : NodeId} {value : V}
    (valued : valueOf forest.nodes id = some value) :
    (forest.link 0 0 id).Shows (content.start [value]) := by
  have shaped := shows.shaped
  have inner {node : NodeId} {other : V} (node_valued : valueOf forest.nodes node = some other) :
      node ≠ 0 :=
    Nat.ne_of_gt (shaped.pos_of_valueOf node_valued)
  by_cases id_mem : id ∈ slotAt forest.nodes 0 0
  · rw [link_of_mem id_mem]
    refine shows.congr (fun _ => .rfl) ?_ (fun _ _ _ => .rfl) (fun _ => rfl)
    intro other
    simp only [Content.start, List.mem_singleton, or_iff_left_iff_imp]
    rintro rfl
    exact (shows.starts _).mpr ⟨id, valued, id_mem⟩
  · have slots (node : NodeId) (position : Nat) :
        slotAt (forest.link 0 0 id).nodes node position =
          if node = 0 ∧ position = 0 then slotAt forest.nodes 0 0 ++ [id]
          else slotAt forest.nodes node position :=
      slotAt_link_of_notMem id_mem shaped.nonempty position
    refine ⟨shaped.link shaped.nonempty (shaped.pos_of_valueOf valued) (lt_size_of_valueOf valued)
      fun _ => rfl, by simpa [Content.start] using shows.has, ?_, ?_, ?_, shows.unknown⟩
    · intro other
      simp only [valueOf_link, slots, Content.start, List.mem_singleton, shows.starts, and_self,
        if_true, List.mem_append]
      constructor
      · rintro (⟨node, node_valued, node_mem⟩ | rfl)
        · exact ⟨node, node_valued, .inl node_mem⟩
        · exact ⟨id, valued, .inr rfl⟩
      · rintro ⟨node, node_valued, node_mem | rfl⟩
        · exact .inl ⟨node, node_valued, node_mem⟩
        · exact .inr (Option.some.inj (node_valued.symm.trans valued))
    · intro parent slot child
      simp only [valueOf_link, slots, Content.start, shows.fills]
      refine exists_congr fun node => exists_congr fun other => and_congr_right fun node_valued => ?_
      rw [if_neg fun root => inner node_valued root.1]
    · intro node other node_valued
      rw [valueOf_link] at node_valued
      rw [slotsOf_link_of_ne (inner node_valued)]
      exact shows.arity node_valued

variable [DecidableEq V]

/-- A value that is there is listed in a slot, which is there from then on. -/
theorem link (shows : forest.Shows content) {parent child : NodeId} {value listed : V}
    (parent_valued : valueOf forest.nodes parent = some value)
    (child_valued : valueOf forest.nodes child = some listed) (slot : Nat) :
    (forest.link parent slot child).Shows
      ((content.declare value (slot + 1)).fill value slot [listed]) := by
  have shaped := shows.shaped
  have parent_lt := lt_size_of_valueOf parent_valued
  have parent_pos := shaped.pos_of_valueOf parent_valued
  by_cases child_mem : child ∈ slotAt forest.nodes parent slot
  · rw [link_of_mem child_mem]
    have present : slot < content.arity value := by
      rw [← shows.arity parent_valued]
      by_contra beyond
      rw [slotAt, List.getD_eq_getElem?_getD,
        List.getElem?_eq_none (Nat.le_of_not_lt beyond)] at child_mem
      cases child_mem
    refine shows.congr (fun _ => .rfl) (fun _ => .rfl) ?_ (Content.declare_of_le present)
    intro other position named
    simp only [Content.fill, Content.declare, List.mem_singleton, or_iff_left_iff_imp]
    rintro ⟨rfl, rfl, rfl⟩
    exact (shows.fills ..).mpr ⟨parent, child, parent_valued, child_valued, child_mem⟩
  · have slots (node : NodeId) (position : Nat) :
        slotAt (forest.link parent slot child).nodes node position =
          if node = parent ∧ position = slot then slotAt forest.nodes parent slot ++ [child]
          else slotAt forest.nodes node position :=
      slotAt_link_of_notMem child_mem parent_lt position
    refine ⟨shaped.link parent_lt (shaped.pos_of_valueOf child_valued)
      (lt_size_of_valueOf child_valued) (fun root => absurd root (Nat.ne_of_gt parent_pos)),
      by simpa [Content.fill, Content.declare] using shows.has, ?_, ?_, ?_, ?_⟩
    · intro other
      simp only [valueOf_link, slots, Content.fill, Content.declare, shows.starts,
        Nat.ne_of_lt parent_pos, false_and, if_false]
    · intro other position named
      simp only [valueOf_link, slots, Content.fill, Content.declare, shows.fills,
        List.mem_singleton]
      constructor
      · rintro (⟨id, node, id_valued, node_valued, node_mem⟩ | ⟨rfl, rfl, rfl⟩)
        · refine ⟨id, node, id_valued, node_valued, ?_⟩
          split
          · rename_i here
            rw [here.1, here.2] at node_mem
            exact List.mem_append_left _ node_mem
          · exact node_mem
        · exact ⟨parent, child, parent_valued, child_valued, by simp⟩
      · rintro ⟨id, node, id_valued, node_valued, node_mem⟩
        split at node_mem
        · rename_i here
          rcases here with ⟨rfl, rfl⟩
          rcases List.mem_append.mp node_mem with old | new
          · exact .inl ⟨id, node, id_valued, node_valued, old⟩
          · rw [List.mem_singleton] at new
            subst new
            rw [parent_valued] at id_valued
            rw [child_valued] at node_valued
            exact .inr ⟨(Option.some.inj id_valued).symm, rfl, (Option.some.inj node_valued).symm⟩
        · exact .inl ⟨id, node, id_valued, node_valued, node_mem⟩
    · intro id other valued
      rw [valueOf_link] at valued
      have length_eq := shows.arity valued
      by_cases same : id = parent
      · subst same
        obtain rfl := Option.some.inj (valued.symm.trans parent_valued)
        rw [length_slotsOf_link child_mem parent_lt, length_eq]
        simp [Content.fill, Content.declare]
      · have different : other ≠ value := by
          rintro rfl
          exact same (shaped.distinct _ _ _ valued parent_valued)
        rw [slotsOf_link_of_ne same, length_eq]
        simp [Content.fill, Content.declare, different]
    · intro other missing
      have different : other ≠ value := by
        rintro rfl
        exact missing ((shows.has _).mpr ⟨parent, parent_valued⟩)
      simp only [Content.fill, Content.declare, Function.update_of_ne different]
      exact shows.unknown missing

/-- A value that is looked up is in the forest from then on, with no slots if it is new. -/
theorem intern (shows : forest.Shows content) (value : V) :
    (forest.intern value).1.Shows (content.add [value]) := by
  have shaped := shows.shaped.intern value
  rw [Forest.intern] at shaped ⊢
  split
  · rename_i id found
    have valued := shows.shaped.find?_eq_some_iff.mp found
    have held : content.has value := (shows.has value).mpr ⟨id, valued⟩
    refine shows.congr ?_ (fun _ => .rfl) (fun _ _ _ => .rfl) (fun _ => rfl)
    intro other
    simp only [Content.add, List.mem_singleton, or_iff_left_iff_imp]
    rintro rfl
    exact held
  · rename_i missing
    rw [missing] at shaped
    have fresh := Shaped.valueOf_ne_of_find? missing
    have last := slotsOf_eq_nil_of_size_le (Nat.le_refl forest.nodes.size)
    refine ⟨shaped, ?_, ?_, ?_, ?_, ?_⟩
    · intro other
      simp only [Content.add, List.mem_singleton, shows.has, valueOf_push]
      constructor
      · rintro (⟨id, valued⟩ | rfl)
        · exact ⟨id, by rwa [if_neg (Nat.ne_of_lt (lt_size_of_valueOf valued))]⟩
        · exact ⟨forest.nodes.size, by rw [if_pos rfl]⟩
      · rintro ⟨id, valued⟩
        split at valued
        · exact .inr (Option.some.inj valued).symm
        · exact .inl ⟨id, valued⟩
    · intro other
      simp only [Content.add, shows.starts, slotAt, slotsOf_push, valueOf_push]
      refine exists_congr fun id => and_congr_left fun listed => ?_
      have old := (shows.shaped.listed 0 id ⟨0, listed⟩).2
      rw [if_neg (Nat.ne_of_lt old)]
    · intro parent slot child
      simp only [Content.add, shows.fills, slotAt, slotsOf_push, valueOf_push]
      refine exists_congr fun id => exists_congr fun listed => ?_
      rw [← and_assoc, ← and_assoc]
      refine and_congr_left fun listed_mem => ?_
      have old := (shows.shaped.listed id listed ⟨slot, listed_mem⟩).2
      have parent_old : id ≠ forest.nodes.size := by
        rintro rfl
        simp [last] at listed_mem
      rw [if_neg (Nat.ne_of_lt old), if_neg parent_old]
    · intro id other valued
      rw [valueOf_push] at valued
      rw [slotsOf_push]
      split at valued
      · rename_i here
        obtain rfl := Option.some.inj valued
        rw [here, last]
        exact (shows.unknown fun held => fresh _ ((shows.has value).mp held).choose_spec).symm
      · exact shows.arity valued
    · intro other missing_now
      exact shows.unknown fun held => missing_now (.inl held)

theorem ensureSlots (shows : forest.Shows content) {id : NodeId} {value : V}
    (valued : valueOf forest.nodes id = some value) (count : Nat) :
    (forest.ensureSlots id count).Shows (content.declare value count) where
  shaped := shows.shaped.ensureSlots (shows.shaped.pos_of_valueOf valued)
  has := by simpa [Content.declare] using shows.has
  starts := by simpa [Content.declare] using shows.starts
  fills := by simpa [Content.declare] using shows.fills
  arity := by
    intro other named other_valued
    rw [valueOf_ensureSlots] at other_valued
    have length_eq := shows.arity other_valued
    by_cases same : other = id
    · subst same
      obtain rfl := Option.some.inj (other_valued.symm.trans valued)
      rw [slotsOf_ensureSlots_self (lt_size_of_valueOf valued), List.length_append,
        List.length_replicate, length_eq]
      simp only [Content.declare, Function.update_self]
      omega
    · have different : named ≠ value := by
        rintro rfl
        exact same (shows.shaped.distinct _ _ _ other_valued valued)
      rw [slotsOf_ensureSlots_of_ne same, length_eq]
      simp [Content.declare, different]
  unknown := by
    intro other missing
    have different : other ≠ value := by
      rintro rfl
      exact missing ((shows.has _).mpr ⟨id, valued⟩)
    simp only [Content.declare, Function.update_of_ne different]
    exact shows.unknown missing

theorem insertNode (shows : forest.Shows content) (value : V) (count : Nat) :
    (forest.insertNode value count).Shows ((content.add [value]).declare value count) :=
  (shows.intern value).ensureSlots (shows.shaped.valueOf_intern value) count

theorem insertRoot (shows : forest.Shows content) (value : V) :
    (forest.insertRoot value).Shows ((content.add [value]).start [value]) :=
  (shows.intern value).linkRoot (shows.shaped.valueOf_intern value)

/-- A value is listed in a declared slot of another one. -/
theorem insertEdge? (shows : forest.Shows content) {parent child : V} {slot : Nat}
    (declared : slot < content.arity parent) {extended : Forest V}
    (accepted : forest.insertEdge? parent slot child = some extended) :
    extended.Shows ((content.add [child]).fill parent slot [child]) := by
  have known : content.has parent := by
    by_contra missing
    rw [shows.unknown missing] at declared
    exact Nat.not_lt_zero slot declared
  rw [Forest.insertEdge?] at accepted
  split at accepted
  · cases accepted
  · cases accepted
    have interned := (shows.intern parent).intern child
    have parent_valued : valueOf ((forest.intern parent).1.intern child).1.nodes
        (forest.intern parent).2 = some parent :=
      Shaped.valueOf_intern_of_valueOf (shows.shaped.valueOf_intern parent)
    have child_valued := (shows.shaped.intern parent).valueOf_intern child
    refine (interned.link parent_valued child_valued slot).congr ?_ (fun _ => .rfl)
      (fun _ _ _ => .rfl) (fun other => (Content.declare_of_le declared other).symm)
    intro other
    simp only [Content.fill, Content.declare, Content.add, List.mem_singleton]
    constructor
    · rintro (held | rfl)
      · exact .inl (.inl held)
      · exact .inr rfl
    · rintro ((held | rfl) | rfl)
      · exact .inl held
      · exact .inl known
      · exact .inr rfl

end Shows

namespace Reached

variable {forest : Forest V} [DecidableEq V] [Quoted V]

theorem perform (reached : forest.Reached) (command : Command V) :
    (forest.perform command).Reached := by
  rcases reached with ⟨commands, rfl⟩
  exact ⟨commands ++ [command], by rw [List.foldl_append]; rfl⟩

end Reached

end Forest

end Cascades
