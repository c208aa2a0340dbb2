import Cascades.Proofs.Forest.Ranking

/-!
# Saturation changes no tree

The enumeration that ranks stand for is written down here once more in unbounded numbers: the number
of trees at a node, the totals of its slots, and the tree of a rank by digits of these totals.
Counting and unranking truncate each of these numbers on its own. A rank that can be asked for is
below the largest count. A number that truncation changes is at least as large, so it is never
subtracted from such a rank, its quotient is zero and its remainder is the rank itself, whether it
is truncated or not.
-/

namespace Cascades

namespace Forest

open Saturating

variable {V : Type}

/-! ## The enumeration in unbounded numbers -/

/-- The number of trees at a node. The depth bounds their height. -/
def exactAt (nodes : Array (ForestNode V)) : (depth : Nat) → NodeId → Nat
  | 0, _ => 0
  | depth + 1, id =>
      match valueOf nodes id with
      | some _ =>
          ((slotsOf nodes id).map fun slot => (slot.map (exactAt nodes depth)).sum).prod
      | none => 0

/-- The subtrees that a rank stands for, slot by slot. -/
def exactTreesAt (tree : NodeId → Nat → Option (Tree V)) (count : NodeId → Nat) (rank : Nat) :
    List (List NodeId) → Option (List (Tree V))
  | [] => some []
  | slot :: rest => do
      let total := (slot.map count).sum
      let (id, digit) ← select count slot (rank % total)
      let first ← tree id digit
      let others ← exactTreesAt tree count (rank / total) rest
      return first :: others

/-- The tree of a rank at a node. The depth bounds the height of the tree. -/
def exactTreeAt (nodes : Array (ForestNode V)) (count : NodeId → Nat) :
    (depth : Nat) → NodeId → Nat → Option (Tree V)
  | 0, _, _ => none
  | depth + 1, id, rank => do
      let value ← valueOf nodes id
      let children ← exactTreesAt (exactTreeAt nodes count depth) count rank (slotsOf nodes id)
      return .node value children

/-- The number of trees of a forest. -/
def exactCount (forest : Forest V) : Nat :=
  (forest.starts.map (exactAt forest.nodes forest.nodes.size)).sum

/-- The tree of a rank. -/
def exactTree (forest : Forest V) (rank : Nat) : Option (Tree V) := do
  let count := exactAt forest.nodes forest.nodes.size
  let (id, digit) ← select count forest.starts rank
  exactTreeAt forest.nodes count forest.nodes.size id digit

/-! ## The unbounded numbers count the trees -/

section Numbers

variable {nodes others : Array (ForestNode V)}

/-- The nodes on the way down are different ones, so the depth suffices. -/
theorem exactAt_eq_of_descent (shaped : Shaped nodes)
    (grounded : ∀ id value, valueOf nodes id = some value → Grounded nodes id)
    {path : List NodeId} {depth : Nat} {id : NodeId} (descent : Descent nodes path id)
    (deep : nodes.size ≤ path.length + depth) : exactAt nodes depth id = numberAt nodes id := by
  cases valued : valueOf nodes id with
  | none =>
      have none_held : numberAt nodes id = 0 := by
        by_contra some_held
        rcases valueOf_of_numberAt_pos (Nat.pos_of_ne_zero some_held) with ⟨value, other⟩
        simp [valued] at other
      cases depth with
      | zero => rw [exactAt, none_held]
      | succ depth => rw [exactAt, valued, none_held]
  | some value =>
      have id_grounded := grounded id value valued
      have id_lt := lt_size_of_valueOf valued
      have shorter := descent.length_lt id_grounded id_lt
      induction depth generalizing path id value with
      | zero => omega
      | succ depth ih =>
          rw [exactAt, valued, numberAt_eq shaped valued id_grounded]
          refine congrArg List.prod (List.map_congr_left fun slot slot_mem => ?_)
          refine congrArg List.sum (List.map_congr_left fun child child_mem => ?_)
          have lists : Lists nodes id child := lists_iff.mpr ⟨slot, slot_mem, child_mem⟩
          rcases shaped.listed_value lists with ⟨other, child_valued⟩
          have child_descent := descent.step id_grounded id_lt lists
          have child_grounded := grounded child other child_valued
          have child_lt := lt_size_of_valueOf child_valued
          refine ih child_descent ?_ other child_valued child_grounded child_lt
            (child_descent.length_lt child_grounded child_lt)
          rw [List.length_cons]
          omega

theorem exactAt_eq (shaped : Shaped nodes)
    (grounded : ∀ id value, valueOf nodes id = some value → Grounded nodes id) (id : NodeId) :
    exactAt nodes nodes.size id = numberAt nodes id :=
  exactAt_eq_of_descent shaped grounded (.nil id) (by simp)

namespace SameBelow

theorem exactAt_eq (same : SameBelow nodes others) (shaped : Shaped nodes) (depth : Nat) :
    exactAt others depth = exactAt nodes depth := by
  induction depth with
  | zero => rfl
  | succ depth ih =>
      funext id
      rw [exactAt, exactAt, ih, same.values]
      cases valued : valueOf nodes id with
      | none => rfl
      | some value => rw [same.slots id (Nat.ne_of_gt (shaped.pos_of_valueOf valued))]

theorem exactTreeAt_eq (same : SameBelow nodes others) (shaped : Shaped nodes)
    (count : NodeId → Nat) (depth : Nat) :
    exactTreeAt others count depth = exactTreeAt nodes count depth := by
  induction depth with
  | zero => rfl
  | succ depth ih =>
      funext id rank
      rw [exactTreeAt, exactTreeAt, ih, same.values]
      cases valued : valueOf nodes id with
      | none => rfl
      | some value => rw [same.slots id (Nat.ne_of_gt (shaped.pos_of_valueOf valued))]

end SameBelow

end Numbers

/-! ## Truncation changes no choice -/

section Choices

variable {count exact : NodeId → Nat} {slot : List NodeId}

/-- A rank that can be asked for selects the same node by truncated numbers. -/
theorem select_clip (clipped : ∀ id ∈ slot, count id = clip (exact id)) {rank : Nat}
    (small : rank < limit) : select count slot rank = select exact slot rank := by
  induction slot generalizing rank with
  | nil => rfl
  | cons id slot ih =>
      have id_clipped := clipped id List.mem_cons_self
      rw [clip] at id_clipped
      have below_iff : rank < count id ↔ rank < exact id := by omega
      rw [select, select]
      by_cases below : rank < exact id
      · rw [if_pos (below_iff.mpr below), if_pos below]
      · have whole : count id = exact id := by omega
        rw [if_neg (mt below_iff.mp below), if_neg below, whole]
        exact ih (fun other other_mem => clipped other (List.mem_cons_of_mem id other_mem))
          (by omega)

theorem digit_le_of_select {rank digit : Nat} {id : NodeId}
    (selected : select count slot rank = some (id, digit)) : id ∈ slot ∧ digit ≤ rank := by
  induction slot generalizing rank with
  | nil => cases selected
  | cons other slot ih =>
      rw [select] at selected
      split at selected
      · cases selected
        exact ⟨List.mem_cons_self, Nat.le_refl digit⟩
      · rcases ih selected with ⟨id_mem, digit_le⟩
        exact ⟨List.mem_cons_of_mem other id_mem, Nat.le_trans digit_le (Nat.sub_le ..)⟩

end Choices

section Trees

variable {nodes : Array (ForestNode V)} {count : NodeId → Nat}

/-- The exact enumeration finds the trees that unranking finds. -/
def Refines (exact : NodeId → Nat → Option (Tree V))
    (unrank : NodeId → Nat → Except Failure (Tree V)) (id : NodeId) : Prop :=
  ∀ {rank tree}, rank < limit → unrank id rank = .ok tree → exact id rank = some tree

theorem exactTreesAt_of_treesAt {unrank : NodeId → Nat → Except Failure (Tree V)}
    {exact : NodeId → Nat → Option (Tree V)} {slots : List (List NodeId)}
    (counted : ∀ slot ∈ slots, ∀ id ∈ slot, count id = clip (numberAt nodes id))
    (refines : ∀ slot ∈ slots, ∀ id ∈ slot, Refines exact unrank id) {node position rank : Nat}
    (small : rank < limit) {trees : List (Tree V)}
    (unranked : treesAt unrank count node position rank slots = .ok trees) :
    exactTreesAt exact (numberAt nodes) rank slots = some trees := by
  induction slots generalizing position rank trees with
  | nil =>
      cases unranked
      rfl
  | cons slot slots ih =>
      have division := div_mod_clip (numberIn nodes slot) small
      have mod_small : rank % numberIn nodes slot < limit :=
        Nat.lt_of_le_of_lt (Nat.mod_le ..) small
      have slot_counted := counted slot List.mem_cons_self
      rw [treesAt, radix_eq slot_counted, division.1, division.2,
        select_clip slot_counted mod_small] at unranked
      split at unranked
      · cases unranked
      cases selected : select (numberAt nodes) slot (rank % numberIn nodes slot) with
      | none =>
          rw [selected] at unranked
          cases unranked
      | some choice =>
          rw [selected] at unranked
          rcases digit_le_of_select selected with ⟨id_mem, digit_le⟩
          cases first : unrank choice.1 choice.2 with
          | error failure => simp [first, bind, Except.bind] at unranked
          | ok tree =>
              cases rest : treesAt unrank count node (position + 1)
                  (rank / numberIn nodes slot) slots with
              | error failure => simp [first, rest, bind, Except.bind] at unranked
              | ok others =>
                  have unranked_eq : tree :: others = trees := by
                    simpa [first, rest, bind, Except.bind, pure, Except.pure] using unranked
                  have first_exact := refines slot List.mem_cons_self choice.1 id_mem
                    (Nat.lt_of_le_of_lt digit_le mod_small) first
                  have rest_exact := ih
                    (fun other other_mem => counted other (List.mem_cons_of_mem slot other_mem))
                    (fun other other_mem => refines other (List.mem_cons_of_mem slot other_mem))
                    (Nat.lt_of_le_of_lt (Nat.div_le_self ..) small) rest
                  rw [exactTreesAt, ← numberIn, selected]
                  simp [first_exact, rest_exact, unranked_eq]

theorem exactTreeAt_of_treeAt (shaped : Shaped nodes)
    (counted : ∀ id value, valueOf nodes id = some value → count id = clip (numberAt nodes id))
    (depth : Nat) (id : NodeId) :
    Refines (exactTreeAt nodes (numberAt nodes) depth) (treeAt nodes count depth) id := by
  induction depth generalizing id with
  | zero =>
      intro rank tree small unranked
      cases unranked
  | succ depth ih =>
      intro rank tree small unranked
      cases valued : valueOf nodes id with
      | none =>
          rw [treeAt] at unranked
          split at unranked
          · rename_i found
            simp [valueOf, found] at valued
          · cases unranked
      | some value =>
          rcases getElem?_of_valueOf valued with ⟨incoming, found⟩
          cases children : treesAt (treeAt nodes count depth) count id 0 rank
              (slotsOf nodes id) with
          | error failure => simp [treeAt, found, children, bind, Except.bind] at unranked
          | ok trees =>
              have unranked_eq : Tree.node value trees = tree := by
                simpa [treeAt, found, children, bind, Except.bind, pure, Except.pure]
                  using unranked
              have child_counted (slot : List NodeId) (slot_mem : slot ∈ slotsOf nodes id)
                  (child : NodeId) (child_mem : child ∈ slot) :
                  count child = clip (numberAt nodes child) := by
                rcases shaped.listed_value (lists_iff.mpr ⟨slot, slot_mem, child_mem⟩) with
                  ⟨other, child_valued⟩
                exact counted child other child_valued
              have exact_children := exactTreesAt_of_treesAt child_counted
                (fun _ _ child _ => ih child) small children
              rw [exactTreeAt, valued]
              simp [exact_children, unranked_eq]

end Trees

/-! ## Unranking agrees with the exact enumeration -/

section Exactness

variable {forest : Forest V}

theorem exactCount_eq (shaped : Shaped forest.nodes)
    (grounded : ∀ id value, valueOf forest.nodes id = some value → Grounded forest.nodes id) :
    forest.exactCount = forest.trees.ncard := by
  rw [ncard_trees shaped grounded, exactCount, funext (exactAt_eq shaped grounded), numberIn]

/-- The exact enumeration may as well run over the forest whose orphans are adopted. -/
theorem exactTree_eq (shaped : Shaped forest.nodes)
    (grounded : ∀ id value, valueOf forest.nodes id = some value → Grounded forest.nodes id)
    (rank : Nat) :
    forest.exactTree rank =
      (select (numberAt forest.adoptOrphans.nodes) forest.starts rank).bind fun choice =>
        exactTreeAt forest.adoptOrphans.nodes (numberAt forest.adoptOrphans.nodes)
          forest.adoptOrphans.nodes.size choice.1 choice.2 := by
  have adopts := adopts_adoptOrphans shaped
  have number_eq : exactAt forest.nodes forest.nodes.size =
      numberAt forest.adoptOrphans.nodes := by
    funext id
    rw [exactAt_eq shaped grounded, numberAt, numberAt, adopts.below.held_eq shaped]
  rw [exactTree, number_eq, adopts.below.exactTreeAt_eq shaped, adopts.size]
  rfl

variable [DecidableEq V] [Quoted V]

/-- Below the count, unranking succeeds with the tree of the exact enumeration. -/
theorem Reached.unrank_eq_exactTree (reached : forest.Reached) (acyclic : ¬ Cyclic forest.nodes)
    {rank : Nat} (below : rank < clip forest.trees.ncard) :
    ∃ tree, (forest.unrank rank).2 = .ok tree ∧ forest.exactTree rank = some tree ∧
      tree ∈ forest.trees ∧ forest.rank tree = rank := by
  have shaped := reached.wellFormed.shaped
  have adopts := adopts_adoptOrphans shaped
  have small : rank < limit := Nat.lt_of_lt_of_le below (Nat.min_le_right ..)
  rcases (unrank_outcome reached acyclic rank).1 below with ⟨tree, unranked, tree_mem, rank_eq⟩
  refine ⟨tree, unranked, ?_, tree_mem, rank_eq⟩
  rcases reached.counts_of_acyclic acyclic with ⟨counted, nodes_eq, counts⟩
  have tallied (id : NodeId) (value : V)
      (valued : valueOf forest.adoptOrphans.nodes id = some value) :
      tallyOf forest.count.1.tallies id = clip (numberAt forest.adoptOrphans.nodes id) := by
    rw [tallyOf, counts.known id value valued]
  have starts_tallied (id : NodeId) (id_mem : id ∈ forest.starts) :
      tallyOf forest.count.1.tallies id = clip (numberAt forest.adoptOrphans.nodes id) := by
    rcases valueOf_of_mem_starts adopts.shaped (starts_adoptOrphans shaped ▸ id_mem) with
      ⟨value, valued⟩
    exact tallied id value valued
  have root_slot : (slotsOf forest.adoptOrphans.nodes 0).getD 0 [] = forest.starts :=
    slotAt_adoptOrphans shaped
  rw [unrank, counted] at unranked
  dsimp only at unranked
  rw [if_pos below, Forest.tree, nodes_eq, root_slot, select_clip starts_tallied small]
    at unranked
  rw [exactTree_eq shaped fun id value => reached.grounded acyclic]
  cases selected : select (numberAt forest.adoptOrphans.nodes) forest.starts rank with
  | none =>
      rw [selected] at unranked
      cases unranked
  | some choice =>
      rw [selected] at unranked
      have digit_small := Nat.lt_of_le_of_lt (digit_le_of_select selected).2 small
      exact exactTreeAt_of_treeAt adopts.shaped tallied forest.adoptOrphans.nodes.size choice.1
        digit_small unranked

/--
Whatever the size of the numbers involved, a forest without a cycle counts the trees of the exact
enumeration up to the largest count, and every rank below that count is the rank of the same tree
by saturating numbers as by exact ones. Different ranks have different trees.
-/
theorem unrank_exact (reached : forest.Reached) (acyclic : ¬ Cyclic forest.nodes) :
    forest.treeCount.2 = .ok (min forest.exactCount limit) ∧
      (∀ rank, rank < min forest.exactCount limit →
        ∃ tree, (forest.unrank rank).2 = .ok tree ∧ forest.exactTree rank = some tree ∧
          tree ∈ forest.trees) ∧
        ∀ first second, first < min forest.exactCount limit →
          second < min forest.exactCount limit →
            (forest.unrank first).2 = (forest.unrank second).2 → first = second := by
  have grounded (id : NodeId) (value : V) (valued : valueOf forest.nodes id = some value) :=
    reached.grounded acyclic valued
  rw [exactCount_eq reached.wellFormed.shaped grounded, ← clip]
  have tree_of_lt (rank : Nat) (below : rank < clip forest.trees.ncard) :=
    reached.unrank_eq_exactTree acyclic below
  refine ⟨by rw [(reached.counts_of_acyclic acyclic).1], ?_, ?_⟩
  · intro rank below
    rcases tree_of_lt rank below with ⟨tree, unranked, exact, tree_mem, -⟩
    exact ⟨tree, unranked, exact, tree_mem⟩
  · intro first second first_lt second_lt same
    rcases tree_of_lt first first_lt with ⟨tree, first_unranked, -, -, first_eq⟩
    rcases tree_of_lt second second_lt with ⟨other, second_unranked, -, -, second_eq⟩
    rw [first_unranked, second_unranked] at same
    cases same
    rw [← first_eq, ← second_eq]

/--
Every value squares the number of trees of the one before it, and the last two have more trees than
can be counted. The last rank still has its tree.
-/
theorem unrank_exact_squares :
    let commands : List (Command Nat) :=
      .insertEdge 0 0 8 :: .insertEdge 0 0 9 :: (List.range 7).flatMap fun level =>
        [.insertEdge (level + 1) 0 level, .insertEdge (level + 1) 1 level]
    let forest := commands.foldl perform empty
    ¬ Cyclic forest.nodes ∧ limit < forest.exactCount ∧
      ∃ tree, (forest.unrank (limit - 1)).2 = .ok tree ∧
        forest.exactTree (limit - 1) = some tree := by
  intro commands forest
  have reached : forest.Reached := ⟨commands, rfl⟩
  have counted : forest.treeCount.2 = .ok limit := by decide +kernel
  have large : limit < forest.exactCount := by decide +kernel
  have acyclic := (reached.of_treeCount counted).1
  refine ⟨acyclic, large, ?_⟩
  rcases (unrank_exact reached acyclic).2.1 (limit - 1)
    (Nat.lt_min.mpr ⟨by omega, by decide⟩) with ⟨tree, unranked, exact, -⟩
  exact ⟨tree, unranked, exact⟩

end Exactness

end Forest

end Cascades
