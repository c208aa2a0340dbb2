import Cascades.Proofs.Forest.Starts

/-!
# Counting is exact up to saturation

A count walks the nodes depth first. The nodes that are underway form a path whose nodes all lie
above the one visited next, so meeting one of them again closes a cycle, and the path is never
longer than the forest has nodes, so the depth of the walk suffices. A known tally belongs to a node
below which every path ends, and it is the exact number of ways to fill the node's slots, truncated
once: truncating after every sum and product comes to the same.
-/

namespace Cascades

namespace Saturating

/-- A number, or the largest count if that is smaller. -/
def clip (number : Nat) : Nat :=
  min number limit

theorem add_eq_clip (left right : Nat) : add left right = clip (left + right) := by
  rw [add, clip, Nat.min_def]

theorem mul_eq_clip (left right : Nat) : mul left right = clip (left * right) := by
  rw [mul, clip, Nat.min_def]

theorem clip_add_clip (left right : Nat) : clip (clip left + clip right) = clip (left + right) := by
  simp only [clip]
  omega

theorem clip_eq_limit {number : Nat} (large : limit ≤ number) : clip number = limit :=
  Nat.min_eq_right large

/-- A factor of zero survives the truncation of the other factor. -/
theorem clip_mul_clip (left right : Nat) : clip (clip left * clip right) = clip (left * right) := by
  have clip_mul {large positive : Nat} (large_le : limit ≤ large) (positive_pos : 0 < positive) :
      clip (large * positive) = limit :=
    clip_eq_limit (Nat.le_trans large_le (Nat.le_mul_of_pos_right large positive_pos))
  have clip_pos {number : Nat} (positive : 0 < number) : 0 < clip number :=
    Nat.lt_min.mpr ⟨positive, by decide⟩
  rcases Nat.eq_zero_or_pos left with rfl | left_pos
  · simp [clip]
  rcases Nat.eq_zero_or_pos right with rfl | right_pos
  · simp [clip]
  rcases Nat.le_total limit left with left_large | left_small
  · rw [clip_eq_limit left_large, clip_mul (Nat.le_refl limit) (clip_pos right_pos),
      clip_mul left_large right_pos]
  rcases Nat.le_total limit right with right_large | right_small
  · rw [clip_eq_limit right_large, Nat.mul_comm, Nat.mul_comm left,
      clip_mul (Nat.le_refl limit) (clip_pos left_pos), clip_mul right_large left_pos]
  have left_clip : clip left = left := Nat.min_eq_left left_small
  have right_clip : clip right = right := Nat.min_eq_left right_small
  rw [left_clip, right_clip]

end Saturating

namespace Forest

open Saturating

variable {V : Type}

/-- The exact number of ways to fill the slots of a node. -/
noncomputable def choicesAt (nodes : Array (ForestNode V)) (id : NodeId) : Nat :=
  ((slotsOf nodes id).map (numberIn nodes)).prod

/-- Known tallies are exact up to saturation, and no path below their nodes goes on forever. -/
def Sound (nodes : Array (ForestNode V)) (tallies : Array Tally) : Prop :=
  ∀ id count, tallies[id]? = some (.known count) →
    Grounded nodes id ∧ count = clip (choicesAt nodes id)

/-- Tallies stay known. -/
def Extends (before after : Array Tally) : Prop :=
  ∀ (id : NodeId) count, before[id]? = some (.known count) → after[id]? = some (.known count)

/-- The tallies while the nodes of a path are being counted. -/
structure Walk (nodes : Array (ForestNode V)) (path : List NodeId) (tallies : Array Tally) :
    Prop where
  size : tallies.size = nodes.size
  sound : Sound nodes tallies
  underway : ∀ id, tallies[id]? = some .underway ↔ id ∈ path
  nodup : path.Nodup

/--
What a part of a count comes to: a result and more tallies, or a failure because some node lies
below itself. Even then the known tallies are right.
-/
def Outcome {α : Type} (nodes : Array (ForestNode V)) (path : List NodeId) (before : Array Tally)
    (good : Array Tally → α → Prop) : Counted α → Prop
  | (after, .ok result) => Walk nodes path after ∧ Extends before after ∧ good after result
  | (after, .error _) => after.size = nodes.size ∧ Sound nodes after ∧ Cyclic nodes

/-- The tally of a node is known. -/
def Known (tallies : Array Tally) (id : NodeId) : Prop :=
  ∃ count, tallies[id]? = some (.known count)

theorem Extends.refl (tallies : Array Tally) : Extends tallies tallies :=
  fun _ _ known => known

theorem Extends.trans {first second third : Array Tally} (early : Extends first second)
    (late : Extends second third) : Extends first third :=
  fun id count known => late id count (early id count known)

theorem Extends.known {before after : Array Tally} (extension : Extends before after)
    {id : NodeId} (known : Known before id) : Known after id := by
  rcases known with ⟨count, found⟩
  exact ⟨count, extension id count found⟩

namespace Walk

variable {nodes : Array (ForestNode V)} {path : List NodeId} {tallies : Array Tally} {id : NodeId}

theorem lt_size (walk : Walk nodes path tallies) (id_mem : id ∈ path) : id < nodes.size := by
  rw [← walk.size]
  exact (Array.getElem?_eq_some_iff.mp ((walk.underway id).mpr id_mem)).1

theorem length_le (walk : Walk nodes path tallies) : path.length ≤ nodes.size := by
  have included : path ⊆ List.range nodes.size := by
    intro id id_mem
    exact List.mem_range.mpr (walk.lt_size id_mem)
  simpa using (walk.nodup.subperm included).length_le

/-- A count of a node starts. -/
theorem enter (walk : Walk nodes path tallies) (unknown : tallies[id]? = some .unknown) :
    Walk nodes (id :: path) (tallies.setIfInBounds id .underway) := by
  have bounded : id < tallies.size := (Array.getElem?_eq_some_iff.mp unknown).1
  have fresh : id ∉ path := by
    intro id_mem
    simp [(walk.underway id).mpr id_mem] at unknown
  refine ⟨by simpa using walk.size, ?_, ?_, List.nodup_cons.mpr ⟨fresh, walk.nodup⟩⟩
  · intro other count known
    rw [Array.getElem?_setIfInBounds] at known
    split at known
    · simp at known
    · exact walk.sound other count known
  · intro other
    rw [Array.getElem?_setIfInBounds, List.mem_cons]
    split
    · rename_i same
      simp [← same]
    · rename_i different
      simp [walk.underway other, Ne.symm different]

/-- A count of a node ends. -/
theorem leave {count : Nat} (walk : Walk nodes (id :: path) tallies) (grounded : Grounded nodes id)
    (exact : count = clip (choicesAt nodes id)) :
    Walk nodes path (tallies.setIfInBounds id (.known count)) := by
  have bounded : id < tallies.size := walk.size ▸ walk.lt_size List.mem_cons_self
  have nodup := List.nodup_cons.mp walk.nodup
  refine ⟨by simpa using walk.size, ?_, ?_, nodup.2⟩
  · intro other number known
    rw [Array.getElem?_setIfInBounds] at known
    split at known
    · rename_i same
      simp only [Option.some.injEq, Tally.known.injEq] at known
      subst same known
      exact ⟨grounded, exact⟩
    · exact walk.sound other number known
  · intro other
    rw [Array.getElem?_setIfInBounds]
    split
    · rename_i same
      subst same
      simp [nodup.1]
    · rename_i different
      simp [walk.underway other, Ne.symm different]

end Walk

/-- Goes on with the tallies and the result of a part of a count, unless it failed. -/
def Counted.andThen {α β : Type} (next : Array Tally → α → Counted β) : Counted α → Counted β
  | (tallies, .error node) => (tallies, .error node)
  | (tallies, .ok result) => next tallies result

theorem countAlternatives_cons (count : Array Tally → NodeId → Counted Nat)
    (tallies : Array Tally) (total : Nat) (id : NodeId) (slot : List NodeId) :
    countAlternatives count tallies total (id :: slot) =
      (count tallies id).andThen fun after trees =>
        countAlternatives count after (add total trees) slot := by
  rw [countAlternatives]
  rcases count tallies id with ⟨after, node | trees⟩ <;> rfl

theorem countSlots_cons (count : Array Tally → NodeId → Counted Nat)
    (tallies : Array Tally) (total : Nat) (slot : List NodeId) (slots : List (List NodeId)) :
    countSlots count tallies total (slot :: slots) =
      (countAlternatives count tallies 0 slot).andThen fun after alternatives =>
        countSlots count after (mul total alternatives) slots := by
  rw [countSlots]
  rcases countAlternatives count tallies 0 slot with ⟨after, node | alternatives⟩ <;> rfl

theorem countEach_cons (count : Array Tally → NodeId → Counted Nat)
    (tallies : Array Tally) (id : NodeId) (ids : List NodeId) :
    countEach count tallies (id :: ids) =
      (count tallies id).andThen fun after _ => countEach count after ids := by
  rw [countEach]
  rcases count tallies id with ⟨after, node | trees⟩ <;> rfl

namespace Outcome

variable {nodes : Array (ForestNode V)} {path : List NodeId} {before : Array Tally} {α β : Type}
  {good : Array Tally → α → Prop} {better : Array Tally → β → Prop} {counted : Counted α}

theorem mono {implied : Array Tally → α → Prop} (outcome : Outcome nodes path before good counted)
    (implies : ∀ after result, Extends before after → good after result → implied after result) :
    Outcome nodes path before implied counted := by
  rcases counted with ⟨after, node | result⟩
  · exact outcome
  · exact ⟨outcome.1, outcome.2.1, implies after result outcome.2.1 outcome.2.2⟩

theorem andThen {next : Array Tally → α → Counted β}
    (outcome : Outcome nodes path before good counted)
    (rest : ∀ after result, Walk nodes path after → good after result →
      Outcome nodes path after better (next after result)) :
    Outcome nodes path before better (counted.andThen next) := by
  rcases counted with ⟨after, node | result⟩
  · exact outcome
  · rcases outcome with ⟨walk, extension, isGood⟩
    have later := rest after result walk isGood
    rw [Counted.andThen]
    rcases finished : next after result with ⟨last, node | final⟩
    · rw [finished] at later
      exact later
    · rw [finished] at later
      exact ⟨later.1, extension.trans later.2.1, later.2.2⟩

end Outcome

section Steps

variable {nodes : Array (ForestNode V)} {path : List NodeId}
  {count : Array Tally → NodeId → Counted Nat}

/-- A count of one node is right as far as it gets. -/
def CountsNode (nodes : Array (ForestNode V)) (path : List NodeId)
    (count : Array Tally → NodeId → Counted Nat) (id : NodeId) : Prop :=
  ∀ tallies, Walk nodes path tallies →
    Outcome nodes path tallies (fun after number => after[id]? = some (.known number))
      (count tallies id)

theorem Walk.number_eq (shaped : Shaped nodes) {tallies : Array Tally} {id : NodeId} {value : V}
    {number : Nat} (walk : Walk nodes path tallies) (known : tallies[id]? = some (.known number))
    (valued : valueOf nodes id = some value) : number = clip (numberAt nodes id) := by
  have ⟨grounded, exact⟩ := walk.sound id number known
  rw [exact, numberAt_eq shaped valued grounded, choicesAt]

theorem countAlternatives_outcome (shaped : Shaped nodes) {slot : List NodeId}
    (valued : ∀ id ∈ slot, ∃ value, valueOf nodes id = some value)
    (counts : ∀ id ∈ slot, CountsNode nodes path count id) {tallies : Array Tally}
    (walk : Walk nodes path tallies) (total : Nat) :
    Outcome nodes path tallies
      (fun after result =>
        (∀ id ∈ slot, Known after id) ∧ result = clip (total + numberIn nodes slot))
      (countAlternatives count tallies (clip total) slot) := by
  induction slot generalizing tallies total with
  | nil => exact ⟨walk, .refl tallies, by simp, by simp [numberIn]⟩
  | cons id slot ih =>
      rw [countAlternatives_cons]
      refine (counts id List.mem_cons_self tallies walk).andThen ?_
      intro after number walk_after known
      rcases valued id List.mem_cons_self with ⟨value, id_valued⟩
      rw [walk_after.number_eq shaped known id_valued, add_eq_clip, clip_add_clip]
      refine (ih (fun other other_mem => valued other (List.mem_cons_of_mem id other_mem))
        (fun other other_mem => counts other (List.mem_cons_of_mem id other_mem)) walk_after
        (total + numberAt nodes id)).mono ?_
      rintro last result extension ⟨rest_known, rfl⟩
      refine ⟨?_, ?_⟩
      · intro other other_mem
        rcases List.mem_cons.mp other_mem with rfl | other_mem
        · exact extension.known ⟨number, known⟩
        · exact rest_known other other_mem
      · rw [numberIn, numberIn, List.map_cons, List.sum_cons, Nat.add_assoc]

theorem countSlots_outcome (shaped : Shaped nodes) {slots : List (List NodeId)}
    (valued : ∀ slot ∈ slots, ∀ id ∈ slot, ∃ value, valueOf nodes id = some value)
    (counts : ∀ slot ∈ slots, ∀ id ∈ slot, CountsNode nodes path count id)
    {tallies : Array Tally} (walk : Walk nodes path tallies) (total : Nat) :
    Outcome nodes path tallies
      (fun after result => (∀ slot ∈ slots, ∀ id ∈ slot, Known after id) ∧
        result = clip (total * (slots.map (numberIn nodes)).prod))
      (countSlots count tallies (clip total) slots) := by
  induction slots generalizing tallies total with
  | nil => exact ⟨walk, .refl tallies, by simp, by simp⟩
  | cons slot slots ih =>
      rw [countSlots_cons]
      refine (countAlternatives_outcome shaped (valued slot List.mem_cons_self)
        (counts slot List.mem_cons_self) walk 0).andThen ?_
      rintro after number walk_after ⟨slot_known, rfl⟩
      rw [mul_eq_clip, clip_mul_clip, Nat.zero_add]
      refine (ih (fun other other_mem => valued other (List.mem_cons_of_mem slot other_mem))
        (fun other other_mem => counts other (List.mem_cons_of_mem slot other_mem)) walk_after
        (total * numberIn nodes slot)).mono ?_
      rintro last result extension ⟨rest_known, rfl⟩
      refine ⟨?_, ?_⟩
      · intro other other_mem id id_mem
        rcases List.mem_cons.mp other_mem with rfl | other_mem
        · exact extension.known (slot_known id id_mem)
        · exact rest_known other other_mem id id_mem
      · rw [List.map_cons, List.prod_cons, Nat.mul_assoc]

theorem countEach_outcome {ids : List NodeId} (counts : ∀ id ∈ ids, CountsNode nodes path count id)
    {tallies : Array Tally} (walk : Walk nodes path tallies) :
    Outcome nodes path tallies (fun after _ => ∀ id ∈ ids, Known after id)
      (countEach count tallies ids) := by
  induction ids generalizing tallies with
  | nil => exact ⟨walk, .refl tallies, by simp⟩
  | cons id ids ih =>
      rw [countEach_cons]
      refine (counts id List.mem_cons_self tallies walk).andThen ?_
      intro after number walk_after known
      refine (ih (fun other other_mem => counts other (List.mem_cons_of_mem id other_mem))
        walk_after).mono ?_
      intro last result extension rest_known other other_mem
      rcases List.mem_cons.mp other_mem with rfl | other_mem
      · exact extension.known ⟨number, known⟩
      · exact rest_known other other_mem

end Steps

/-! ## The count of a node -/

section Nodes

variable {nodes : Array (ForestNode V)} {path : List NodeId}

/-- The slots of a node that is listed nowhere below itself are counted in its place on the path. -/
theorem countNode_slots (shaped : Shaped nodes) {id : NodeId} {tallies : Array Tally}
    {count : Array Tally → NodeId → Counted Nat}
    (counts : ∀ child, Lists nodes id child → CountsNode nodes (id :: path) count child)
    (walk : Walk nodes path tallies) (unknown : tallies[id]? = some .unknown) :
    Outcome nodes path tallies (fun after number => after[id]? = some (.known number))
      (match countSlots count (tallies.setIfInBounds id .underway) 1 (slotsOf nodes id) with
      | (after, .error node) => (after, .error node)
      | (after, .ok number) => (after.setIfInBounds id (.known number), .ok number)) := by
  have lists {slot : List NodeId} (slot_mem : slot ∈ slotsOf nodes id) {child : NodeId}
      (child_mem : child ∈ slot) : Lists nodes id child :=
    lists_iff.mpr ⟨slot, slot_mem, child_mem⟩
  have counted := countSlots_outcome shaped
    (fun slot slot_mem child child_mem => shaped.listed_value (lists slot_mem child_mem))
    (fun slot slot_mem child child_mem => counts child (lists slot_mem child_mem))
    (walk.enter unknown) 1
  rw [show clip 1 = 1 from rfl, Nat.one_mul] at counted
  rcases finished : countSlots count (tallies.setIfInBounds id .underway) 1 (slotsOf nodes id) with
    ⟨after, node | number⟩
  · rw [finished] at counted
    exact counted
  · rw [finished] at counted
    rcases counted with ⟨walk_after, extension, below_known, exact⟩
    have grounded : Grounded nodes id := by
      refine Acc.intro id ?_
      intro child child_listed
      rcases lists_iff.mp child_listed with ⟨slot, slot_mem, child_mem⟩
      rcases below_known slot slot_mem child child_mem with ⟨below, known⟩
      exact (walk_after.sound child below known).1
    have bounded : id < after.size := walk_after.size ▸ walk_after.lt_size List.mem_cons_self
    refine ⟨walk_after.leave grounded exact, ?_, by simp [bounded]⟩
    intro other below known
    have different : id ≠ other := by
      rintro rfl
      simp [unknown] at known
    rw [Array.getElem?_setIfInBounds_ne different]
    refine extension other below ?_
    rwa [Array.getElem?_setIfInBounds_ne different]

/-- The nodes that are being counted lie above the next one and leave enough depth for it. -/
theorem countNode_outcome (shaped : Shaped nodes) {depth : Nat} {id : NodeId}
    (bounded : id < nodes.size) (below : ∀ ancestor ∈ path, Relation.TransGen (Lists nodes) ancestor id)
    (deep : nodes.size < path.length + depth) :
    CountsNode nodes path (countNode nodes depth) id := by
  intro tallies walk
  induction depth generalizing path id tallies with
  | zero => exact (Nat.not_lt_of_le walk.length_le deep).elim
  | succ depth ih =>
      rw [countNode]
      rcases tally : tallies[id]? with _ | (_ | _ | number)
      · rw [Array.getElem?_eq_none_iff, walk.size] at tally
        exact (Nat.not_lt_of_le tally bounded).elim
      · refine countNode_slots shaped ?_ walk tally
        intro child lists before walk_before
        refine ih (shaped.listed id child lists).2 ?_ ?_ before walk_before
        · intro ancestor ancestor_mem
          rcases List.mem_cons.mp ancestor_mem with rfl | ancestor_mem
          · exact .single lists
          · exact (below ancestor ancestor_mem).tail lists
        · rw [List.length_cons]
          omega
      · exact ⟨walk.size, walk.sound, id, below id ((walk.underway id).mp tally)⟩
      · exact ⟨walk, .refl tallies, tally⟩

end Nodes

/-! ## The depth of a walk -/

section Depth

variable {nodes : Array (ForestNode V)} {path : List NodeId}
  {count other : Array Tally → NodeId → Counted Nat}

/-- Two ways to count a node agree wherever the walk may meet it. -/
def Agrees (nodes : Array (ForestNode V)) (path : List NodeId)
    (count other : Array Tally → NodeId → Counted Nat) (id : NodeId) : Prop :=
  ∀ tallies, Walk nodes path tallies → other tallies id = count tallies id

theorem Outcome.andThen_congr {α β : Type} {before : Array Tally}
    {good : Array Tally → α → Prop} {counted : Counted α} {next later : Array Tally → α → Counted β}
    (outcome : Outcome nodes path before good counted)
    (same : ∀ after result, Walk nodes path after → later after result = next after result) :
    counted.andThen later = counted.andThen next := by
  rcases counted with ⟨after, node | result⟩
  · rfl
  · exact same after result outcome.1

theorem countAlternatives_congr {slot : List NodeId}
    (counts : ∀ id ∈ slot, CountsNode nodes path count id)
    (agrees : ∀ id ∈ slot, Agrees nodes path count other id) {tallies : Array Tally}
    (walk : Walk nodes path tallies) (total : Nat) :
    countAlternatives other tallies total slot = countAlternatives count tallies total slot := by
  induction slot generalizing tallies total with
  | nil => rfl
  | cons id slot ih =>
      rw [countAlternatives_cons, countAlternatives_cons,
        agrees id List.mem_cons_self tallies walk]
      refine (counts id List.mem_cons_self tallies walk).andThen_congr ?_
      intro after number walk_after
      exact ih (fun child child_mem => counts child (List.mem_cons_of_mem id child_mem))
        (fun child child_mem => agrees child (List.mem_cons_of_mem id child_mem)) walk_after _

theorem countSlots_congr (shaped : Shaped nodes) {slots : List (List NodeId)}
    (valued : ∀ slot ∈ slots, ∀ id ∈ slot, ∃ value, valueOf nodes id = some value)
    (counts : ∀ slot ∈ slots, ∀ id ∈ slot, CountsNode nodes path count id)
    (agrees : ∀ slot ∈ slots, ∀ id ∈ slot, Agrees nodes path count other id)
    {tallies : Array Tally} (walk : Walk nodes path tallies) (total : Nat) :
    countSlots other tallies total slots = countSlots count tallies total slots := by
  induction slots generalizing tallies total with
  | nil => rfl
  | cons slot slots ih =>
      rw [countSlots_cons, countSlots_cons, countAlternatives_congr
        (counts slot List.mem_cons_self) (agrees slot List.mem_cons_self) walk]
      refine (countAlternatives_outcome shaped (valued slot List.mem_cons_self)
        (counts slot List.mem_cons_self) walk 0).andThen_congr ?_
      intro after number walk_after
      exact ih (fun other other_mem => valued other (List.mem_cons_of_mem slot other_mem))
        (fun other other_mem => counts other (List.mem_cons_of_mem slot other_mem))
        (fun other other_mem => agrees other (List.mem_cons_of_mem slot other_mem)) walk_after _

theorem countEach_congr {ids : List NodeId}
    (counts : ∀ id ∈ ids, CountsNode nodes path count id)
    (agrees : ∀ id ∈ ids, Agrees nodes path count other id) {tallies : Array Tally}
    (walk : Walk nodes path tallies) :
    countEach other tallies ids = countEach count tallies ids := by
  induction ids generalizing tallies with
  | nil => rfl
  | cons id ids ih =>
      rw [countEach_cons, countEach_cons, agrees id List.mem_cons_self tallies walk]
      refine (counts id List.mem_cons_self tallies walk).andThen_congr ?_
      intro after number walk_after
      exact ih (fun child child_mem => counts child (List.mem_cons_of_mem id child_mem))
        (fun child child_mem => agrees child (List.mem_cons_of_mem id child_mem)) walk_after

/-- A depth that suffices is never used up, so more of it changes nothing. -/
theorem countNode_depth (shaped : Shaped nodes) {depth : Nat} (extra : Nat) {id : NodeId}
    (bounded : id < nodes.size)
    (below : ∀ ancestor ∈ path, Relation.TransGen (Lists nodes) ancestor id)
    (deep : nodes.size < path.length + depth) :
    Agrees nodes path (countNode nodes depth) (countNode nodes (depth + extra)) id := by
  intro tallies walk
  induction depth generalizing path id tallies with
  | zero => exact (Nat.not_lt_of_le walk.length_le deep).elim
  | succ depth ih =>
      rw [Nat.add_right_comm, countNode, countNode]
      rcases tally : tallies[id]? with _ | (_ | _ | number)
      · rw [Array.getElem?_eq_none_iff, walk.size] at tally
        exact (Nat.not_lt_of_le tally bounded).elim
      · have lists {slot : List NodeId} (slot_mem : slot ∈ slotsOf nodes id) {child : NodeId}
            (child_mem : child ∈ slot) : Lists nodes id child :=
          lists_iff.mpr ⟨slot, slot_mem, child_mem⟩
        have child_below {child : NodeId} (child_listed : Lists nodes id child) :
            ∀ ancestor ∈ id :: path, Relation.TransGen (Lists nodes) ancestor child := by
          intro ancestor ancestor_mem
          rcases List.mem_cons.mp ancestor_mem with rfl | ancestor_mem
          · exact .single child_listed
          · exact (below ancestor ancestor_mem).tail child_listed
        have child_deep : nodes.size < (id :: path).length + depth := by
          rw [List.length_cons]
          omega
        dsimp only
        rw [countSlots_congr shaped
          (fun slot slot_mem child child_mem => shaped.listed_value (lists slot_mem child_mem))
          (fun slot slot_mem child child_mem =>
            countNode_outcome shaped (shaped.listed id child (lists slot_mem child_mem)).2
              (child_below (lists slot_mem child_mem)) child_deep)
          (fun slot slot_mem child child_mem =>
            ih (shaped.listed id child (lists slot_mem child_mem)).2
              (child_below (lists slot_mem child_mem)) child_deep)
          (walk.enter tally)]
      · rfl
      · rfl

end Depth

end Forest

end Cascades
