import Cascades.Proofs.Forest.Contents
import Cascades.Proofs.Forest.Ranking

/-!
# Listing the trees of a forest

Counting and unranking change a forest, but neither its trees nor their ranks. Asked for in whatever
order, the ranks below the count of a forest without cycles stand for different trees of it, and if
the number of trees fits, they stand for all of them.
-/

namespace Cascades

namespace Forest

open Saturating

variable {V : Type} [DecidableEq V] [Quoted V]

/-- The forest after some of its trees have been counted or asked for. -/
inductive Asked (forest : Forest V) : Forest V → Prop
  | none : Asked forest forest
  | count {later : Forest V} : Asked forest later → Asked forest later.treeCount.1
  | unrank {later : Forest V} (rank : Nat) : Asked forest later →
      Asked forest (later.unrank rank).1

section Nodes

variable {forest other : Forest V}

omit [DecidableEq V] [Quoted V] in
theorem starts_congr (same : other.nodes = forest.nodes) : other.starts = forest.starts := by
  simp only [starts, orphans, valueNodes, size, same]

omit [DecidableEq V] [Quoted V] in
theorem trees_congr (same : other.nodes = forest.nodes) : other.trees = forest.trees := by
  simp only [trees, starts_congr same, same]

omit [Quoted V] in
theorem rank_congr (same : other.nodes = forest.nodes) : other.rank = forest.rank := by
  funext tree
  simp only [rank, starts_congr same, same]

omit [Quoted V] in
theorem rank_adoptOrphans (shaped : Shaped forest.nodes) {tree : Tree V}
    (tree_mem : tree ∈ forest.trees) : forest.adoptOrphans.rank tree = forest.rank tree := by
  rcases tree_mem with ⟨id, id_mem, holds⟩
  have below := (adopts_adoptOrphans shaped).below
  rw [rank, rank, starts_adoptOrphans shaped, below.numberBefore_eq shaped, below.chosen_eq,
    chosen_eq shaped id_mem holds.valueOf_eq, below.rankAt_eq shaped tree holds]

end Nodes

namespace Asked

variable {forest later : Forest V}

/-- What is asked of a forest does not change its trees. -/
theorem same (asked : forest.Asked later) (reached : forest.Reached) :
    later.Reached ∧ (Cyclic later.nodes ↔ Cyclic forest.nodes) ∧ later.trees = forest.trees ∧
      ∀ tree ∈ forest.trees, later.rank tree = forest.rank tree := by
  have count {middle : Forest V} (middle_reached : middle.Reached)
      (before : (Cyclic middle.nodes ↔ Cyclic forest.nodes) ∧ middle.trees = forest.trees ∧
        ∀ tree ∈ forest.trees, middle.rank tree = forest.rank tree) :
      (Cyclic middle.count.1.nodes ↔ Cyclic forest.nodes) ∧ middle.count.1.trees = forest.trees ∧
        ∀ tree ∈ forest.trees, middle.count.1.rank tree = forest.rank tree := by
    have shaped := middle_reached.wellFormed.shaped
    have nodes_eq := (count_outcome middle_reached.wellFormed).2.1
    rw [nodes_eq, trees_congr nodes_eq, rank_congr nodes_eq, cyclic_adoptOrphans shaped,
      trees_adoptOrphans shaped]
    refine ⟨before.1, before.2.1, ?_⟩
    intro tree tree_mem
    rw [rank_adoptOrphans shaped (before.2.1 ▸ tree_mem)]
    exact before.2.2 tree tree_mem
  induction asked with
  | none => exact ⟨reached, .rfl, rfl, fun _ _ => rfl⟩
  | count _ ih =>
      refine ⟨ih.1.perform .count, ?_⟩
      rw [treeCount_fst]
      exact count ih.1 ih.2
  | unrank rank _ ih =>
      refine ⟨ih.1.perform (.unrank rank), ?_⟩
      rw [unrank_fst]
      exact count ih.1 ih.2

end Asked

namespace Reached

variable {forest : Forest V} (reached : forest.Reached)
include reached

/-- A count does not fail without a cycle. -/
theorem treeCount_of_acyclic (acyclic : ¬ Cyclic forest.nodes) :
    forest.treeCount.2 = .ok (clip forest.trees.ncard) := by
  rw [(reached.counts_of_acyclic acyclic).1]

theorem treeCount_ok_iff :
    (∃ count, forest.treeCount.2 = .ok count) ↔ ¬ Cyclic forest.nodes :=
  ⟨fun ⟨_, counted⟩ => (reached.of_treeCount counted).1,
    fun acyclic => ⟨_, reached.treeCount_of_acyclic acyclic⟩⟩

theorem finite_trees (acyclic : ¬ Cyclic forest.nodes) : forest.trees.Finite :=
  trees_finite reached.wellFormed.shaped fun _ _ valued => reached.grounded acyclic valued

variable {count : Nat} (counted : forest.treeCount.2 = .ok count)
include counted

/-- Every rank below a count, saturated or not, stands for the tree of that rank. -/
theorem unrank_of_lt {later : Forest V} (asked : forest.Asked later) {rank : Nat}
    (below : rank < count) :
    ∃ tree ∈ forest.trees, (later.unrank rank).2 = .ok tree ∧ forest.rank tree = rank := by
  rcases reached.of_treeCount counted with ⟨acyclic, rfl⟩
  rcases asked.same reached with ⟨later_reached, cyclic, trees_eq, rank_eq⟩
  rw [← cyclic] at acyclic
  rw [← trees_eq] at below ⊢
  rcases (unrank_outcome later_reached acyclic rank).1 below with ⟨tree, unranked, tree_mem, rfl⟩
  exact ⟨tree, tree_mem, unranked, (rank_eq tree (trees_eq ▸ tree_mem)).symm⟩

/-- A rank that is not below a count stands for no tree. -/
theorem lt_of_unrank {later : Forest V} (asked : forest.Asked later) {rank : Nat} {tree : Tree V}
    (unranked : (later.unrank rank).2 = .ok tree) : rank < count := by
  rcases reached.of_treeCount counted with ⟨acyclic, rfl⟩
  rcases asked.same reached with ⟨later_reached, cyclic, trees_eq, -⟩
  rw [← cyclic] at acyclic
  by_contra beyond
  rw [← trees_eq, Nat.not_lt] at beyond
  simp [(unrank_outcome later_reached acyclic rank).2 beyond] at unranked

/-- If the number of trees fits, unranking inverts the rank, whatever was asked before. -/
theorem unrank_iff (fits : forest.trees.ncard ≤ limit) {later : Forest V}
    (asked : forest.Asked later) {rank : Nat} {tree : Tree V} :
    (later.unrank rank).2 = .ok tree ↔ tree ∈ forest.trees ∧ forest.rank tree = rank := by
  rcases reached.of_treeCount counted with ⟨acyclic, count_eq⟩
  rw [clip, Nat.min_eq_left fits] at count_eq
  choose result result_mem unranked rank_eq using
    fun rank (below : rank < count) => reached.unrank_of_lt counted asked below
  constructor
  · intro here
    have below := reached.lt_of_unrank counted asked here
    obtain rfl : result rank below = tree := Except.ok.inj ((unranked rank below).symm.trans here)
    exact ⟨result_mem rank below, rank_eq rank below⟩
  · rintro ⟨tree_mem, rfl⟩
    -- There are as many ranks as trees, and different ranks have different trees.
    have surjective := Set.surj_on_of_inj_on_of_ncard_le (s := Set.Iio count) (t := forest.trees)
      (fun rank below => result rank below) (fun rank below => result_mem rank below)
      (fun first second first_lt second_lt same => by
        rw [← rank_eq first first_lt, ← rank_eq second second_lt, same])
      (by simp [count_eq, Set.ncard_eq_toFinset_card']) (reached.finite_trees acyclic)
    rcases surjective tree tree_mem with ⟨rank, below, rfl⟩
    rw [rank_eq rank below]
    exact unranked rank below

end Reached

end Forest

end Cascades
