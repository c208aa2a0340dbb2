import Cascades.Proofs.Forest.Reached
import Mathlib.Algebra.BigOperators.Intervals
import Mathlib.Algebra.BigOperators.Ring.Finset

/-!
# Ranks are a bijection

The rank of a tree is written down here without saturation: at a node it is a number in mixed radix,
whose digit for a slot adds the rank of the subtree there to the number of trees of the nodes listed
before the chosen one. Unranking inverts it. For a rank below the saturated count nothing that it
divides by, subtracts or compares with is truncated in a way that matters: a truncated number is
larger than the rank that is left, and then so is the exact one.
-/

namespace Cascades

namespace Tree

variable {V : Type}

/-- The value at the root of a tree. -/
def value : Tree V → V
  | .node value _ => value

end Tree

namespace Forest

open Saturating

/-- A number in mixed radix, the least significant digit first. -/
def mixedRadix (totals digits : List Nat) : Nat :=
  ∑ position ∈ Finset.range digits.length,
    digits.getD position 0 * (totals.take position).prod

@[simp]
theorem mixedRadix_nil (totals : List Nat) : mixedRadix totals [] = 0 := by
  simp [mixedRadix]

theorem mixedRadix_cons (total digit : Nat) (totals digits : List Nat) :
    mixedRadix (total :: totals) (digit :: digits) =
      digit + total * mixedRadix totals digits := by
  rw [mixedRadix, List.length_cons, Finset.sum_range_succ', mixedRadix, Finset.mul_sum, Nat.add_comm]
  congr 1
  · simp
  · refine Finset.sum_congr rfl ?_
    intro position _
    simp only [List.getD_cons_succ, List.take_succ_cons, List.prod_cons]
    exact Nat.mul_left_comm ..

variable {V : Type} [DecidableEq V]

/-- The node listed in a slot that stands for a value. -/
def chosen (nodes : Array (ForestNode V)) (slot : List NodeId) (value : V) : NodeId :=
  (slot.find? fun id => valueOf nodes id = some value).getD 0

/-- The exact number of trees of the nodes listed before the one that stands for a value. -/
noncomputable def numberBefore (nodes : Array (ForestNode V)) (slot : List NodeId) (value : V) :
    Nat :=
  numberIn nodes (slot.takeWhile fun id => valueOf nodes id ≠ some value)

mutual

/-- The rank of a tree at a node. -/
noncomputable def rankAt (nodes : Array (ForestNode V)) (id : NodeId) : Tree V → Nat
  | .node _ children =>
      mixedRadix ((slotsOf nodes id).map (numberIn nodes))
        (digits nodes (slotsOf nodes id) children)

/-- The digits of a list of trees that fill slots. -/
noncomputable def digits (nodes : Array (ForestNode V)) :
    List (List NodeId) → List (Tree V) → List Nat
  | slot :: slots, tree :: trees =>
      (numberBefore nodes slot tree.value + rankAt nodes (chosen nodes slot tree.value) tree) ::
        digits nodes slots trees
  | _, _ => []

end

/-- The rank of a tree of a forest. -/
noncomputable def rank (forest : Forest V) (tree : Tree V) : Nat :=
  numberBefore forest.nodes forest.starts tree.value +
    rankAt forest.nodes (chosen forest.nodes forest.starts tree.value) tree

section Chosen

variable {nodes : Array (ForestNode V)} {id : NodeId} {earlier later : List NodeId}

omit [DecidableEq V] in
theorem HoldsTree.valueOf_eq {tree : Tree V} (holds : HoldsTree nodes id tree) :
    valueOf nodes id = some tree.value := by
  cases tree with
  | node value children => exact holds.1

omit [DecidableEq V] in
/-- The nodes listed before another one stand for other values. -/
theorem valueOf_ne_of_nodup (shaped : Shaped nodes) {value : V}
    (valued : valueOf nodes id = some value) (nodup : (earlier ++ id :: later).Nodup)
    {other : NodeId} (other_mem : other ∈ earlier) : valueOf nodes other ≠ some value := by
  intro other_valued
  have same : other = id := shaped.distinct other id value other_valued valued
  exact (List.nodup_append.mp nodup).2.2 other other_mem id List.mem_cons_self same

theorem chosen_eq (shaped : Shaped nodes) {slot : List NodeId} {value : V} (id_mem : id ∈ slot)
    (valued : valueOf nodes id = some value) : chosen nodes slot value = id := by
  rw [chosen]
  cases found : slot.find? fun id => valueOf nodes id = some value with
  | none => simpa [valued] using List.find?_eq_none.mp found id id_mem
  | some other =>
      have other_valued : valueOf nodes other = some value := by
        simpa using List.find?_some found
      exact shaped.distinct other id value other_valued valued

theorem numberBefore_eq (shaped : Shaped nodes) {value : V}
    (valued : valueOf nodes id = some value) (nodup : (earlier ++ id :: later).Nodup) :
    numberBefore nodes (earlier ++ id :: later) value = numberIn nodes earlier := by
  rw [numberBefore, List.takeWhile_append_of_pos]
  · simp [valued]
  · intro other other_mem
    simpa using valueOf_ne_of_nodup shaped valued nodup other_mem

end Chosen

/-! ## Unranking inverts the rank -/

section Unrank

variable {nodes : Array (ForestNode V)} {count : NodeId → Nat}

omit [DecidableEq V] in
theorem radix_eq {slot : List NodeId}
    (counted : ∀ id ∈ slot, count id = clip (numberAt nodes id)) :
    radix count slot = clip (numberIn nodes slot) := by
  have step (slot : List NodeId) (counted : ∀ id ∈ slot, count id = clip (numberAt nodes id))
      (total : Nat) : slot.foldl (fun total id => add total (count id)) (clip total) =
        clip (total + numberIn nodes slot) := by
    induction slot generalizing total with
    | nil => simp [numberIn]
    | cons id slot ih =>
        rw [List.foldl_cons, counted id List.mem_cons_self, add_eq_clip, clip_add_clip,
          ih (fun other other_mem => counted other (List.mem_cons_of_mem id other_mem)), numberIn,
          numberIn, List.map_cons, List.sum_cons, Nat.add_assoc]
  simpa [radix, clip] using step slot counted 0

omit [DecidableEq V] in
/-- A rank that is not truncated selects by the exact numbers. -/
theorem select_eq {slot : List NodeId} {rank : Nat}
    (counted : ∀ id ∈ slot, count id = clip (numberAt nodes id))
    (below : rank < numberIn nodes slot) (small : rank < limit) :
    ∃ earlier id later digit, slot = earlier ++ id :: later ∧
      select count slot rank = some (id, digit) ∧ rank = numberIn nodes earlier + digit ∧
        digit < numberAt nodes id := by
  induction slot generalizing rank with
  | nil => simp [numberIn] at below
  | cons id slot ih =>
      have id_counted := counted id List.mem_cons_self
      rw [clip] at id_counted
      rw [numberIn, List.map_cons, List.sum_cons, ← numberIn] at below
      rw [select]
      split
      · rename_i here
        exact ⟨[], id, slot, rank, rfl, rfl, by simp [numberIn], by omega⟩
      · rename_i further
        have rest_below : rank - count id < numberIn nodes slot := by omega
        rcases ih (fun other other_mem => counted other (List.mem_cons_of_mem id other_mem))
          rest_below (by omega) with ⟨earlier, other, later, digit, split_eq, selected, rank_eq, digit_lt⟩
        refine ⟨id :: earlier, other, later, digit, by simp [split_eq], selected, ?_, digit_lt⟩
        rw [numberIn, List.map_cons, List.sum_cons, ← numberIn]
        omega

/-- Unranking at a node gives the tree of a rank. -/
def UnranksAt (nodes : Array (ForestNode V)) (unrank : NodeId → Nat → Except Failure (Tree V))
    (id : NodeId) : Prop :=
  ∀ rank, rank < numberAt nodes id → rank < limit →
    ∃ tree, unrank id rank = .ok tree ∧ HoldsTree nodes id tree ∧ rankAt nodes id tree = rank

/-- The tree that a digit stands for in a slot. -/
theorem unranks_select (shaped : Shaped nodes)
    {unrank : NodeId → Nat → Except Failure (Tree V)} {slot : List NodeId}
    (nodup : slot.Nodup) (counted : ∀ id ∈ slot, count id = clip (numberAt nodes id))
    (unranks : ∀ id ∈ slot, UnranksAt nodes unrank id) {rank : Nat}
    (below : rank < numberIn nodes slot) (small : rank < limit) :
    ∃ id digit tree, select count slot rank = some (id, digit) ∧ unrank id digit = .ok tree ∧
      id ∈ slot ∧ HoldsTree nodes id tree ∧
        numberBefore nodes slot tree.value +
          rankAt nodes (chosen nodes slot tree.value) tree = rank := by
  rcases select_eq counted below small with
    ⟨earlier, id, later, digit, rfl, selected, rank_eq, digit_lt⟩
  have id_mem : id ∈ earlier ++ id :: later := by simp
  rcases unranks id id_mem digit digit_lt (by omega) with ⟨tree, unranked, holds, digit_eq⟩
  refine ⟨id, digit, tree, selected, unranked, id_mem, holds, ?_⟩
  rw [chosen_eq shaped id_mem holds.valueOf_eq, numberBefore_eq shaped holds.valueOf_eq nodup,
    digit_eq, rank_eq]

theorem div_mod_clip {rank : Nat} (total : Nat) (small : rank < limit) :
    rank % clip total = rank % total ∧ rank / clip total = rank / total := by
  rcases Nat.le_total total limit with fits | large
  · rw [clip, Nat.min_eq_left fits]
    exact ⟨rfl, rfl⟩
  · rw [clip_eq_limit large, Nat.mod_eq_of_lt small, Nat.div_eq_of_lt small,
      Nat.mod_eq_of_lt (Nat.lt_of_lt_of_le small large),
      Nat.div_eq_of_lt (Nat.lt_of_lt_of_le small large)]
    exact ⟨rfl, rfl⟩

theorem treesAt_eq (shaped : Shaped nodes) {unrank : NodeId → Nat → Except Failure (Tree V)}
    {slots : List (List NodeId)} (nodup : ∀ slot ∈ slots, slot.Nodup)
    (counted : ∀ slot ∈ slots, ∀ id ∈ slot, count id = clip (numberAt nodes id))
    (unranks : ∀ slot ∈ slots, ∀ id ∈ slot, UnranksAt nodes unrank id) (node position : Nat)
    {rank : Nat} (below : rank < (slots.map (numberIn nodes)).prod) (small : rank < limit) :
    ∃ trees, treesAt unrank count node position rank slots = .ok trees ∧
      HoldsTrees nodes slots trees ∧
        mixedRadix (slots.map (numberIn nodes)) (digits nodes slots trees) = rank := by
  induction slots generalizing rank position with
  | nil =>
      rw [List.map_nil, List.prod_nil, Nat.lt_one_iff] at below
      exact ⟨[], rfl, trivial, by simp [digits, below]⟩
  | cons slot slots ih =>
      rw [List.map_cons, List.prod_cons] at below
      have slot_pos : 0 < numberIn nodes slot := by
        rcases Nat.eq_zero_or_pos (numberIn nodes slot) with none | positive
        · simp [none] at below
        · exact positive
      have radix_clip := radix_eq (counted slot List.mem_cons_self)
      have radix_ne : radix count slot ≠ 0 := by
        rw [radix_clip, clip]
        have : 0 < limit := by decide
        omega
      have division := div_mod_clip (numberIn nodes slot) small
      rcases unranks_select shaped (nodup slot List.mem_cons_self)
        (counted slot List.mem_cons_self) (unranks slot List.mem_cons_self)
        (Nat.mod_lt rank slot_pos) (Nat.lt_of_le_of_lt (Nat.mod_le ..) small) with
        ⟨id, digit, tree, selected, unranked, id_mem, holds, digit_eq⟩
      rcases ih (fun other other_mem => nodup other (List.mem_cons_of_mem slot other_mem))
        (fun other other_mem => counted other (List.mem_cons_of_mem slot other_mem))
        (fun other other_mem => unranks other (List.mem_cons_of_mem slot other_mem)) (position + 1)
        (Nat.div_lt_of_lt_mul below) (Nat.lt_of_le_of_lt (Nat.div_le_self ..) small) with
        ⟨trees, rest_unranked, rest_holds, rest_eq⟩
      refine ⟨tree :: trees, ?_, ⟨⟨id, id_mem, holds⟩, rest_holds⟩, ?_⟩
      · rw [treesAt, if_neg radix_ne, radix_clip, division.1, division.2, selected]
        simp [unranked, rest_unranked, bind, Except.bind, pure, Except.pure]
      · rw [digits, List.map_cons, mixedRadix_cons, digit_eq, rest_eq]
        exact Nat.mod_add_div rank (numberIn nodes slot)

/-- The nodes on the way down to a node. -/
structure Descent (nodes : Array (ForestNode V)) (path : List NodeId) (id : NodeId) : Prop where
  nodup : path.Nodup
  bounded : ∀ ancestor ∈ path, ancestor < nodes.size
  above : ∀ ancestor ∈ path, Relation.TransGen (Lists nodes) ancestor id

namespace Descent

variable {path : List NodeId} {id child : NodeId}

omit [DecidableEq V] in
theorem nil (id : NodeId) : Descent nodes [] id :=
  ⟨List.nodup_nil, by simp, by simp⟩

omit [DecidableEq V] in
theorem notMem (descent : Descent nodes path id) (grounded : Grounded nodes id) : id ∉ path :=
  fun id_mem => grounded.not_transGen (descent.above id id_mem)

omit [DecidableEq V] in
theorem length_lt (descent : Descent nodes path id) (grounded : Grounded nodes id)
    (id_lt : id < nodes.size) : path.length < nodes.size := by
  have included : id :: path ⊆ List.range nodes.size := by
    intro other other_mem
    rcases List.mem_cons.mp other_mem with rfl | other_mem
    · exact List.mem_range.mpr id_lt
    · exact List.mem_range.mpr (descent.bounded other other_mem)
  have nodup := List.nodup_cons.mpr ⟨descent.notMem grounded, descent.nodup⟩
  simpa using (nodup.subperm included).length_le

omit [DecidableEq V] in
theorem step (descent : Descent nodes path id) (grounded : Grounded nodes id)
    (id_lt : id < nodes.size) (lists : Lists nodes id child) :
    Descent nodes (id :: path) child where
  nodup := List.nodup_cons.mpr ⟨descent.notMem grounded, descent.nodup⟩
  bounded := by
    intro ancestor ancestor_mem
    rcases List.mem_cons.mp ancestor_mem with rfl | ancestor_mem
    · exact id_lt
    · exact descent.bounded ancestor ancestor_mem
  above := by
    intro ancestor ancestor_mem
    rcases List.mem_cons.mp ancestor_mem with rfl | ancestor_mem
    · exact .single lists
    · exact (descent.above ancestor ancestor_mem).tail lists

end Descent

/-- The nodes on the way down are different ones, so the depth suffices. -/
theorem treeAt_eq (shaped : Shaped nodes)
    (grounded : ∀ id value, valueOf nodes id = some value → Grounded nodes id)
    (counted : ∀ id value, valueOf nodes id = some value →
      count id = clip (numberAt nodes id))
    {path : List NodeId} {depth : Nat} {id : NodeId} (descent : Descent nodes path id)
    (deep : nodes.size ≤ path.length + depth) :
    UnranksAt nodes (treeAt nodes count depth) id := by
  intro rank below small
  rcases valueOf_of_numberAt_pos (Nat.zero_lt_of_lt below) with ⟨value, valued⟩
  have id_lt := lt_size_of_valueOf valued
  have id_grounded := grounded id value valued
  have shorter := descent.length_lt id_grounded id_lt
  induction depth generalizing path id rank value with
  | zero => omega
  | succ depth ih =>
      have lists {slot : List NodeId} (slot_mem : slot ∈ slotsOf nodes id) {child : NodeId}
          (child_mem : child ∈ slot) : Lists nodes id child :=
        lists_iff.mpr ⟨slot, slot_mem, child_mem⟩
      have unranks (slot : List NodeId) (slot_mem : slot ∈ slotsOf nodes id) (child : NodeId)
          (child_mem : child ∈ slot) : UnranksAt nodes (treeAt nodes count depth) child := by
        intro digit digit_below digit_small
        have child_descent := descent.step id_grounded id_lt (lists slot_mem child_mem)
        rcases valueOf_of_numberAt_pos (Nat.zero_lt_of_lt digit_below) with ⟨other, child_valued⟩
        have child_grounded := grounded child other child_valued
        have child_lt := lt_size_of_valueOf child_valued
        refine ih child_descent ?_ digit digit_below digit_small other child_valued child_lt
          child_grounded (child_descent.length_lt child_grounded child_lt)
        rw [List.length_cons]
        omega
      have child_counted (slot : List NodeId) (slot_mem : slot ∈ slotsOf nodes id)
          (child : NodeId) (child_mem : child ∈ slot) :
          count child = clip (numberAt nodes child) := by
        rcases shaped.listed_value (lists slot_mem child_mem) with ⟨other, child_valued⟩
        exact counted child other child_valued
      rw [numberAt_eq shaped valued id_grounded] at below
      rcases treesAt_eq shaped (fun slot => shaped.slot_nodup) child_counted unranks id 0 below
        small with ⟨trees, unranked, holds, rank_eq⟩
      rcases getElem?_of_valueOf valued with ⟨incoming, found⟩
      refine ⟨.node value trees, ?_, ⟨valued, holds⟩, ?_⟩
      · simp [treeAt, found, unranked, bind, Except.bind, pure, Except.pure]
      · rw [rankAt, rank_eq]

end Unrank

/-! ## Below the universal root -/

namespace SameBelow

variable {nodes others : Array (ForestNode V)}

omit [DecidableEq V] in
theorem numberIn_eq (same : SameBelow nodes others) (shaped : Shaped nodes) :
    numberIn others = numberIn nodes := by
  have number_eq : numberAt others = numberAt nodes := by
    funext id
    rw [numberAt, numberAt, same.held_eq shaped]
  funext slot
  rw [numberIn, numberIn, number_eq]

theorem numberBefore_eq (same : SameBelow nodes others) (shaped : Shaped nodes)
    (slot : List NodeId) (value : V) :
    numberBefore others slot value = numberBefore nodes slot value := by
  simp only [numberBefore, same.numberIn_eq shaped, same.values]

theorem chosen_eq (same : SameBelow nodes others) (slot : List NodeId) (value : V) :
    chosen others slot value = chosen nodes slot value := by
  simp only [chosen, same.values]

mutual

theorem rankAt_eq (same : SameBelow nodes others) (shaped : Shaped nodes) {id : NodeId} :
    (tree : Tree V) → HoldsTree nodes id tree → rankAt others id tree = rankAt nodes id tree
  | .node value children, ⟨valued, holds⟩ => by
      have inner : id ≠ 0 := Nat.ne_of_gt (shaped.pos_of_valueOf valued)
      rw [rankAt, rankAt, same.slots id inner, same.numberIn_eq shaped,
        same.digits_eq shaped (slotsOf nodes id) children holds]

theorem digits_eq (same : SameBelow nodes others) (shaped : Shaped nodes) :
    (slots : List (List NodeId)) → (trees : List (Tree V)) → HoldsTrees nodes slots trees →
      digits others slots trees = digits nodes slots trees
  | [], [], _ => by rw [digits, digits] <;> simp
  | slot :: slots, tree :: trees, ⟨⟨id, id_mem, holds⟩, rest⟩ => by
      rw [digits, digits, same.numberBefore_eq shaped, same.chosen_eq,
        Forest.chosen_eq shaped id_mem holds.valueOf_eq, same.rankAt_eq shaped tree holds,
        same.digits_eq shaped slots trees rest]

end

end SameBelow

/-! ## Unranking a forest -/

variable [Quoted V]

/-- Below the count every rank stands for the tree of that rank, saturated or not. -/
theorem unrank_outcome {forest : Forest V} (reached : forest.Reached)
    (acyclic : ¬ Cyclic forest.nodes) (rank : Nat) :
    (rank < clip forest.trees.ncard → ∃ tree, (forest.unrank rank).2 = .ok tree ∧
        tree ∈ forest.trees ∧ forest.rank tree = rank) ∧
      (clip forest.trees.ncard ≤ rank →
        (forest.unrank rank).2 = .error (.rankOutOfRange rank (clip forest.trees.ncard))) := by
  have wellFormed := reached.wellFormed
  have shaped := wellFormed.shaped
  have adopts := adopts_adoptOrphans shaped
  have grounded (id : NodeId) (value : V) (valued : valueOf forest.nodes id = some value) :=
    reached.grounded acyclic valued
  rcases reached.counts_of_acyclic acyclic with ⟨counted, nodes_eq, counts⟩
  rw [unrank, counted]
  refine ⟨?_, ?_⟩
  · intro below
    have tallied (id : NodeId) (value : V)
        (valued : valueOf forest.adoptOrphans.nodes id = some value) :
        tallyOf forest.count.1.tallies id = clip (numberAt forest.adoptOrphans.nodes id) := by
      rw [tallyOf, counts.known id value valued]
    have unranks (id : NodeId) : UnranksAt forest.adoptOrphans.nodes
        (treeAt forest.adoptOrphans.nodes (tallyOf forest.count.1.tallies)
          forest.adoptOrphans.nodes.size) id :=
      treeAt_eq adopts.shaped counts.grounded tallied (.nil id) (by simp)
    have starts_valued (id : NodeId) (id_mem : id ∈ forest.starts) :=
      valueOf_of_mem_starts adopts.shaped (starts_adoptOrphans shaped ▸ id_mem)
    have below_exact : rank < numberIn forest.adoptOrphans.nodes forest.starts := by
      rw [adopts.below.numberIn_eq shaped, ← ncard_trees shaped grounded]
      exact Nat.lt_of_lt_of_le below (Nat.min_le_left ..)
    rcases unranks_select adopts.shaped (starts_nodup shaped)
      (fun id id_mem => (starts_valued id id_mem).elim (tallied id)) (fun id _ => unranks id)
      below_exact (Nat.lt_of_lt_of_le below (Nat.min_le_right ..)) with
      ⟨id, digit, tree, selected, unranked, id_mem, holds, rank_eq⟩
    have root_slot : (slotsOf forest.count.1.nodes 0).getD 0 [] = forest.starts := by
      rw [nodes_eq]
      exact slotAt_adoptOrphans shaped
    have below_holds : HoldsTree forest.nodes id tree :=
      adopts.below.symm.holdsTree adopts.shaped.root_value tree holds
    refine ⟨tree, ?_, ⟨id, id_mem, below_holds⟩, ?_⟩
    · dsimp only
      rw [if_pos below, Forest.tree, root_slot, selected, nodes_eq]
      exact unranked
    · rw [adopts.below.numberBefore_eq shaped, adopts.below.chosen_eq,
        chosen_eq shaped id_mem below_holds.valueOf_eq,
        adopts.below.rankAt_eq shaped tree below_holds] at rank_eq
      rw [Forest.rank, chosen_eq shaped id_mem below_holds.valueOf_eq]
      exact rank_eq
  · intro beyond
    dsimp only
    rw [if_neg (Nat.not_lt_of_le beyond)]

/--
If the number of trees fits, unranking inverts the rank: it succeeds exactly below that number, and
every tree of the forest is the result of exactly one rank.
-/
theorem unrank_bijective {forest : Forest V} (reached : forest.Reached)
    (acyclic : ¬ Cyclic forest.nodes) (fits : forest.trees.ncard ≤ limit) :
    forest.trees.Finite ∧
      (∀ rank, (∃ tree, (forest.unrank rank).2 = .ok tree) ↔ rank < forest.trees.ncard) ∧
        (∀ rank tree, (forest.unrank rank).2 = .ok tree ↔
          tree ∈ forest.trees ∧ forest.rank tree = rank) ∧
          ∀ tree ∈ forest.trees, ∃! rank, (forest.unrank rank).2 = .ok tree := by
  have clip_eq : clip forest.trees.ncard = forest.trees.ncard := Nat.min_eq_left fits
  have finite := trees_finite reached.wellFormed.shaped
    fun id value valued => reached.grounded acyclic valued
  have success (rank : Nat) (below : rank < forest.trees.ncard) :=
    (unrank_outcome reached acyclic rank).1 (by rwa [clip_eq])
  have failure (rank : Nat) (beyond : forest.trees.ncard ≤ rank) :=
    (unrank_outcome reached acyclic rank).2 (by rwa [clip_eq])
  have sound {rank : Nat} {tree : Tree V} (unranked : (forest.unrank rank).2 = .ok tree) :
      rank < forest.trees.ncard ∧ tree ∈ forest.trees ∧ forest.rank tree = rank := by
    rcases Nat.lt_or_ge rank forest.trees.ncard with below | beyond
    · rcases success rank below with ⟨other, other_unranked, other_mem, rank_eq⟩
      have same : other = tree := by simpa [unranked] using other_unranked.symm
      exact ⟨below, same ▸ other_mem, same ▸ rank_eq⟩
    · simp [failure rank beyond] at unranked
  -- There are as many ranks as trees, and different ranks have different trees.
  have complete {tree : Tree V} (tree_mem : tree ∈ forest.trees) :
      ∃ rank, (forest.unrank rank).2 = .ok tree := by
    choose result unranked result_mem rank_eq using success
    have injective : Function.Injective fun rank : Fin forest.trees.ncard =>
        result rank.1 rank.2 := by
      intro first second same
      have first_eq := rank_eq first.1 first.2
      rw [show result first.1 first.2 = result second.1 second.2 from same,
        rank_eq second.1 second.2] at first_eq
      exact Fin.ext first_eq.symm
    have range_eq : Set.range (fun rank : Fin forest.trees.ncard => result rank.1 rank.2) =
        forest.trees := by
      refine Set.eq_of_subset_of_ncard_le ?_ ?_ finite
      · rintro _ ⟨rank, rfl⟩
        exact result_mem rank.1 rank.2
      · rw [← Set.image_univ, Set.ncard_image_of_injective _ injective, Set.ncard_univ]
        simp
    rw [← range_eq] at tree_mem
    rcases tree_mem with ⟨rank, rfl⟩
    exact ⟨rank.1, unranked rank.1 rank.2⟩
  refine ⟨finite, ?_, ?_, ?_⟩
  · intro rank
    refine ⟨fun ⟨tree, unranked⟩ => (sound unranked).1, fun below => ?_⟩
    rcases success rank below with ⟨tree, unranked, -⟩
    exact ⟨tree, unranked⟩
  · intro rank tree
    refine ⟨fun unranked => (sound unranked).2, ?_⟩
    rintro ⟨tree_mem, rfl⟩
    rcases complete tree_mem with ⟨rank, unranked⟩
    rwa [(sound unranked).2.2]
  · intro tree tree_mem
    rcases complete tree_mem with ⟨rank, unranked⟩
    refine ⟨rank, unranked, ?_⟩
    intro other other_unranked
    rw [← (sound unranked).2.2, ← (sound other_unranked).2.2]

/-- The two trees over a shared value have the ranks zero and one. -/
theorem unrank_diamond :
    let forest : Forest Nat := [.insertEdge 1 0 2, .insertEdge 1 0 3, .insertEdge 2 0 4,
      .insertEdge 3 0 4, .insertEdge 1 1 4].foldl perform empty
    forest.trees.ncard = 2 ∧ forest.trees.ncard ≤ limit ∧
      ∀ tree ∈ forest.trees, (forest.unrank (forest.rank tree)).2 = .ok tree := by
  intro forest
  have reached : forest.Reached := ⟨_, rfl⟩
  have counted : forest.treeCount.2 = .ok 2 := by decide +kernel
  rcases reached.of_treeCount counted with ⟨acyclic, number_eq⟩
  have two_lt : 2 < limit := by decide
  rw [clip] at number_eq
  have two : forest.trees.ncard = 2 := by omega
  have fits : forest.trees.ncard ≤ limit := by omega
  refine ⟨two, fits, ?_⟩
  intro tree tree_mem
  exact ((unrank_bijective reached acyclic fits).2.2.1 (forest.rank tree) tree).mpr
    ⟨tree_mem, rfl⟩

end Forest

end Cascades
