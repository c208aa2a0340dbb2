import Cascades.Proofs.Forest.Counting
import Mathlib.Algebra.BigOperators.Ring.List

/-!
# The forests that can be reached

A forest is reached by commands: inserts, counts and unrankings in any order. Every command keeps
the shape of the nodes, and tallies that are not stale stay exact, since whatever changes a node
makes them stale.

For every reached forest a count fails exactly if some node lies below itself, wherever that node
is. Otherwise it is the number of trees of the forest up to saturation, and afterwards the number of
trees at every value is known.
-/

namespace Cascades

namespace Forest

open Saturating

variable {V : Type}

/-- What every command keeps of a forest. -/
structure WellFormed (forest : Forest V) : Prop where
  shaped : Shaped forest.nodes
  tallied : forest.tallies.size = forest.nodes.size
  settled : forest.stale = false → Walk forest.nodes [] forest.tallies

namespace WellFormed

variable {forest changed : Forest V}

theorem empty : (Forest.empty : Forest V).WellFormed where
  shaped := .empty
  tallied := rfl
  settled := by
    intro _
    refine ⟨rfl, ?_, ?_, List.nodup_nil⟩
    · rintro (_ | id) count known <;> simp [Forest.empty] at known
    · rintro (_ | id) <;> simp [Forest.empty]

/-- Tallies of nodes that changed are stale. -/
theorem of_changed (wellFormed : forest.WellFormed) (shaped : Shaped changed.nodes)
    (tallied : changed.tallies.size = changed.nodes.size)
    (outdated : changed = forest ∨ changed.stale = true) : changed.WellFormed := by
  rcases outdated with rfl | stale
  · exact wellFormed
  · exact ⟨shaped, tallied, fun fresh => by simp [stale] at fresh⟩

theorem ensureSlots (wellFormed : forest.WellFormed) {id : NodeId} (positive : 0 < id)
    (arity : Nat) : (forest.ensureSlots id arity).WellFormed := by
  refine wellFormed.of_changed (wellFormed.shaped.ensureSlots positive) ?_ ?_
  · rw [size_ensureSlots, ← wellFormed.tallied, Forest.ensureSlots]
    split <;> rfl
  · rw [Forest.ensureSlots]
    split
    · exact .inr rfl
    · exact .inl rfl

theorem link (wellFormed : forest.WellFormed) {parent child : NodeId} {slot : Nat}
    (parent_lt : parent < forest.nodes.size) (child_pos : 0 < child)
    (child_lt : child < forest.nodes.size) (root_slot : parent = 0 → slot = 0) :
    (forest.link parent slot child).WellFormed :=
  wellFormed.of_changed (wellFormed.shaped.link parent_lt child_pos child_lt root_slot)
    (by simpa using wellFormed.tallied) link_eq_or_stale

theorem adoptOrphans (wellFormed : forest.WellFormed) : forest.adoptOrphans.WellFormed := by
  have adopts := adopts_adoptOrphans wellFormed.shaped
  refine wellFormed.of_changed adopts.shaped ?_ adopts.changed
  rw [adopts.tallies, adopts.size]
  exact wellFormed.tallied

/-- A count starts from tallies that are right. -/
theorem walk_freshTallies (wellFormed : forest.WellFormed) :
    Walk forest.nodes [] forest.freshTallies := by
  rw [freshTallies]
  split
  · refine ⟨by simp, ?_, ?_, List.nodup_nil⟩
    · intro id count known
      simp [Array.getElem?_replicate] at known
    · intro id
      simp [Array.getElem?_replicate]
  · rename_i fresh
    exact wellFormed.settled (by simpa using fresh)

variable [DecidableEq V]

theorem intern (wellFormed : forest.WellFormed) (value : V) :
    (forest.intern value).1.WellFormed := by
  refine wellFormed.of_changed (wellFormed.shaped.intern value) ?_ ?_ <;> rw [Forest.intern] <;>
    split
  · exact wellFormed.tallied
  · simp [wellFormed.tallied]
  · exact .inl rfl
  · exact .inr rfl

theorem insertNode (wellFormed : forest.WellFormed) (value : V) (arity : Nat) :
    (forest.insertNode value arity).WellFormed :=
  (wellFormed.intern value).ensureSlots
    ((wellFormed.shaped.intern value).pos_of_valueOf (wellFormed.shaped.valueOf_intern value))
    arity

theorem insertEdge? (wellFormed : forest.WellFormed) {parent child : V} {slot : Nat}
    (accepted : forest.insertEdge? parent slot child = some changed) : changed.WellFormed := by
  rw [Forest.insertEdge?] at accepted
  split at accepted
  · cases accepted
  · cases accepted
    have both := (wellFormed.intern parent).intern child
    have parent_valued : valueOf ((forest.intern parent).1.intern child).1.nodes
        (forest.intern parent).2 = some parent :=
      Shaped.valueOf_intern_of_valueOf (wellFormed.shaped.valueOf_intern parent)
    have child_valued := (wellFormed.shaped.intern parent).valueOf_intern child
    have parent_pos := both.shaped.pos_of_valueOf parent_valued
    exact both.link (lt_size_of_valueOf parent_valued) (both.shaped.pos_of_valueOf child_valued)
      (lt_size_of_valueOf child_valued) fun root => (Nat.ne_of_gt parent_pos root).elim

theorem insertRoot (wellFormed : forest.WellFormed) (value : V) :
    (forest.insertRoot value).WellFormed :=
  have valued := wellFormed.shaped.valueOf_intern value
  (wellFormed.intern value).link (wellFormed.shaped.intern value).nonempty
    ((wellFormed.shaped.intern value).pos_of_valueOf valued) (lt_size_of_valueOf valued) fun _ => rfl

end WellFormed

/-! ## The count of a forest -/

/-- What a count that succeeds has found out. -/
structure Counts (forest : Forest V) (tallies : Array Tally) (number : Nat) : Prop where
  grounded : ∀ id value, valueOf forest.nodes id = some value → Grounded forest.nodes id
  known : ∀ id value, valueOf forest.nodes id = some value →
    tallies[id]? = some (.known (clip (numberAt forest.nodes id)))
  number_eq : number = clip forest.trees.ncard

theorem not_cyclic_of_grounded {nodes : Array (ForestNode V)} (shaped : Shaped nodes)
    (grounded : ∀ id value, valueOf nodes id = some value → Grounded nodes id) :
    ¬ Cyclic nodes := by
  rintro ⟨id, loop⟩
  rcases Relation.TransGen.tail'_iff.mp loop with ⟨last, -, into⟩
  rcases shaped.listed_value into with ⟨value, valued⟩
  exact (grounded id value valued).not_transGen loop

theorem trees_finite {forest : Forest V} (shaped : Shaped forest.nodes)
    (grounded : ∀ id value, valueOf forest.nodes id = some value → Grounded forest.nodes id) :
    forest.trees.Finite := by
  refine heldBySlot_finite ?_
  intro id id_mem
  rcases valueOf_of_mem_starts shaped id_mem with ⟨value, valued⟩
  exact (grounded id value valued).held_finite

theorem ncard_trees {forest : Forest V} (shaped : Shaped forest.nodes)
    (grounded : ∀ id value, valueOf forest.nodes id = some value → Grounded forest.nodes id) :
    forest.trees.ncard = numberIn forest.nodes forest.starts := by
  refine ncard_heldBySlot shaped (starts_nodup shaped) ?_
  intro id id_mem
  rcases valueOf_of_mem_starts shaped id_mem with ⟨value, valued⟩
  exact (grounded id value valued).held_finite

/-- The universal root has one slot, unless no tree starts anywhere. -/
theorem slotsOf_root {forest : Forest V} (shaped : Shaped forest.nodes)
    (adopted : forest.orphans = []) :
    (slotsOf forest.nodes 0 = [] ∧ forest.starts = []) ∨
      slotsOf forest.nodes 0 = [forest.starts] := by
  have arity := shaped.root_arity
  rcases root : slotsOf forest.nodes 0 with _ | ⟨slot, _ | ⟨other, slots⟩⟩
  · simp [starts, slotAt, root, adopted]
  · simp [starts, slotAt, root, adopted]
  · simp [root] at arity

/-- What a count comes to if no node needs to be adopted any more. -/
theorem counts_of_adopted {forest : Forest V} (shaped : Shaped forest.nodes)
    (adopted : forest.orphans = []) {before : Array Tally} (walk : Walk forest.nodes [] before)
    (known : ∀ id ∈ forest.valueNodes, Known before id) :
    (slotsOf forest.nodes 0 = [] → Counts forest before 0) ∧
      ∀ {after : Array Tally} {number : Nat}, slotsOf forest.nodes 0 ≠ [] →
        Walk forest.nodes [] after → Extends before after →
        after[0]? = some (.known number) → Counts forest after number := by
  have grounded (id : NodeId) (value : V) (valued : valueOf forest.nodes id = some value) :
      Grounded forest.nodes id := by
    rcases known id ((mem_valueNodes shaped).mpr ⟨value, valued⟩) with ⟨count, found⟩
    exact (walk.sound id count found).1
  have tallies_known {after : Array Tally} (walk_after : Walk forest.nodes [] after)
      (extension : Extends before after) (id : NodeId) (value : V)
      (valued : valueOf forest.nodes id = some value) :
      after[id]? = some (.known (clip (numberAt forest.nodes id))) := by
    rcases extension.known (known id ((mem_valueNodes shaped).mpr ⟨value, valued⟩)) with
      ⟨count, found⟩
    rw [found, walk_after.number_eq shaped found valued]
  refine ⟨?_, ?_⟩
  · intro rootless
    refine ⟨grounded, tallies_known walk (.refl before), ?_⟩
    rcases slotsOf_root shaped adopted with ⟨-, starts_nil⟩ | root
    · simp [ncard_trees shaped grounded, starts_nil, numberIn, clip]
    · simp [rootless] at root
  · intro after number rooted walk_after extension root_known
    refine ⟨grounded, tallies_known walk_after extension, ?_⟩
    rcases slotsOf_root shaped adopted with ⟨root, -⟩ | root
    · exact (rooted root).elim
    · rw [(walk_after.sound 0 number root_known).2, choicesAt, root, ncard_trees shaped grounded]
      simp

/-- A count fails below itself, or finds the number of trees of the forest and of each value. -/
theorem count_outcome {forest : Forest V} (wellFormed : forest.WellFormed) :
    forest.count.1.WellFormed ∧ forest.count.1.nodes = forest.adoptOrphans.nodes ∧
      Sound forest.adoptOrphans.nodes forest.count.1.tallies ∧
      ((∃ node, forest.count.2 = .error node ∧ forest.count.1.stale = true ∧
          Cyclic forest.adoptOrphans.nodes) ∨
        ∃ number, forest.count.2 = .ok number ∧ forest.count.1.stale = false ∧
          Counts forest.adoptOrphans forest.count.1.tallies number) := by
  rw [count]
  have adopted := orphans_adoptOrphans wellFormed.shaped
  generalize forest.adoptOrphans = forest, wellFormed.adoptOrphans = wellFormed at adopted ⊢
  have shaped := wellFormed.shaped
  have counts {id : NodeId} (bounded : id < forest.nodes.size) :
      CountsNode forest.nodes [] (countNode forest.nodes (forest.nodes.size + 1)) id :=
    countNode_outcome shaped bounded (by simp) (by simp)
  have values := countEach_outcome
    (fun id id_mem => counts (lt_size_of_valueOf ((mem_valueNodes shaped).mp id_mem).choose_spec))
    wellFormed.walk_freshTallies
  rcases counted : countEach (countNode forest.nodes (forest.nodes.size + 1)) forest.freshTallies
    forest.valueNodes with ⟨before, node | done⟩
  · rw [counted] at values
    dsimp only
    exact ⟨⟨shaped, values.1, by simp⟩, rfl, values.2.1, .inl ⟨node, rfl, rfl, values.2.2⟩⟩
  · rw [counted] at values
    dsimp only
    rcases values with ⟨walk, -, known⟩
    have found := counts_of_adopted shaped adopted walk known
    split
    · rename_i rootless
      exact ⟨⟨shaped, walk.size, fun _ => walk⟩, rfl, walk.sound,
        .inr ⟨0, rfl, rfl, found.1 (by simpa using rootless)⟩⟩
    · rename_i rooted
      have root := counts shaped.nonempty before walk
      rcases root_counted : countNode forest.nodes (forest.nodes.size + 1) before 0 with
        ⟨after, node | number⟩
      · rw [root_counted] at root
        refine (not_cyclic_of_grounded shaped ?_ root.2.2).elim
        intro id value valued
        rcases known id ((mem_valueNodes shaped).mpr ⟨value, valued⟩) with ⟨count, tally⟩
        exact (walk.sound id count tally).1
      · rw [root_counted] at root
        dsimp only
        exact ⟨⟨shaped, root.1.size, fun _ => root.1⟩, rfl, root.1.sound,
          .inr ⟨number, rfl, rfl,
            found.2 (by simpa using rooted) root.1 root.2.1 root.2.2⟩⟩

/-- A count whose walk goes down to the given depth at most. -/
def countWithin (forest : Forest V) (depth : Nat) : Forest V × Except NodeId Nat :=
  let forest := forest.adoptOrphans
  let count := countNode forest.nodes depth
  match countEach count forest.freshTallies forest.valueNodes with
  | (tallies, .error node) => ({ forest with tallies, stale := true }, .error node)
  | (tallies, .ok ()) =>
      if (slotsOf forest.nodes 0).isEmpty then ({ forest with tallies, stale := false }, .ok 0)
      else
        let (tallies, outcome) := count tallies 0
        ({ forest with tallies, stale := false }, outcome)

/-- A count ends by itself: a walk of any greater depth does the same. -/
theorem countWithin_eq_count {forest : Forest V} (wellFormed : forest.WellFormed) {depth : Nat}
    (deep : forest.nodes.size < depth) : forest.countWithin depth = forest.count := by
  rw [← (adopts_adoptOrphans wellFormed.shaped).size] at deep
  rw [countWithin, count]
  generalize forest.adoptOrphans = forest, wellFormed.adoptOrphans = wellFormed at deep ⊢
  have shaped := wellFormed.shaped
  have counts {id : NodeId} (bounded : id < forest.nodes.size) :
      CountsNode forest.nodes [] (countNode forest.nodes (forest.nodes.size + 1)) id :=
    countNode_outcome shaped bounded (by simp) (by simp)
  have agrees {id : NodeId} (bounded : id < forest.nodes.size) :
      Agrees forest.nodes [] (countNode forest.nodes (forest.nodes.size + 1))
        (countNode forest.nodes depth) id := by
    have extra : Agrees forest.nodes [] (countNode forest.nodes (forest.nodes.size + 1))
        (countNode forest.nodes (forest.nodes.size + 1 + (depth - (forest.nodes.size + 1)))) id :=
      countNode_depth shaped _ bounded (by simp) (by simp)
    rwa [Nat.add_sub_cancel' deep] at extra
  have value_lt {id : NodeId} (id_mem : id ∈ forest.valueNodes) : id < forest.nodes.size :=
    lt_size_of_valueOf ((mem_valueNodes shaped).mp id_mem).choose_spec
  have values := countEach_outcome (fun id id_mem => counts (value_lt id_mem))
    wellFormed.walk_freshTallies
  dsimp only
  rw [countEach_congr (fun id id_mem => counts (value_lt id_mem))
    (fun id id_mem => agrees (value_lt id_mem)) wellFormed.walk_freshTallies]
  rcases counted : countEach (countNode forest.nodes (forest.nodes.size + 1)) forest.freshTallies
    forest.valueNodes with ⟨before, node | done⟩
  · rfl
  · rw [counted] at values
    dsimp only
    rw [agrees shaped.nonempty before values.1]

/-! ## Commands -/

variable [DecidableEq V] [Quoted V]

/-- What can be asked of a forest. -/
inductive Command (V : Type) where
  | insertNode (value : V) (arity : Nat)
  | insertEdge (parent : V) (slot : Nat) (child : V)
  | insertRoot (value : V)
  | count
  | unrank (rank : Nat)

/-- The forest after a command. A refused edge leaves it as it was. -/
def perform (forest : Forest V) : Command V → Forest V
  | .insertNode value arity => forest.insertNode value arity
  | .insertEdge parent slot child =>
      match forest.insertEdge parent slot child with
      | .ok extended => extended
      | .error _ => forest
  | .insertRoot value => forest.insertRoot value
  | .count => forest.treeCount.1
  | .unrank rank => (forest.unrank rank).1

/-- A forest that a sequence of commands makes of the empty one. -/
def Reached (forest : Forest V) : Prop :=
  ∃ commands : List (Command V), forest = commands.foldl perform empty

omit [DecidableEq V] in
theorem treeCount_fst (forest : Forest V) : forest.treeCount.1 = forest.count.1 := by
  rw [treeCount]
  rcases forest.count with ⟨counted, node | number⟩ <;> rfl

omit [DecidableEq V] in
theorem treeCount_snd (forest : Forest V) : forest.treeCount.2 =
    forest.count.2.mapError fun node => .nodeCycle node (forest.count.1.valueText node) := by
  rw [treeCount]
  rcases forest.count with ⟨counted, node | number⟩ <;> rfl

omit [DecidableEq V] in
theorem unrank_fst (forest : Forest V) (rank : Nat) :
    (forest.unrank rank).1 = forest.count.1 := by
  rw [← treeCount_fst, unrank]
  rcases forest.treeCount with ⟨counted, failure | number⟩
  · rfl
  · dsimp only
    split <;> rfl

/-- Every command keeps a forest well-formed. -/
theorem WellFormed.perform {forest : Forest V} (wellFormed : forest.WellFormed)
    (command : Command V) : (forest.perform command).WellFormed := by
  cases command with
  | insertNode value arity => exact wellFormed.insertNode value arity
  | insertEdge parent slot child =>
      rw [Forest.perform, insertEdge]
      cases accepted : forest.insertEdge? parent slot child with
      | none => exact wellFormed
      | some extended => exact wellFormed.insertEdge? accepted
  | insertRoot value => exact wellFormed.insertRoot value
  | count =>
      rw [Forest.perform, treeCount_fst]
      exact (count_outcome wellFormed).1
  | unrank rank =>
      rw [Forest.perform, unrank_fst]
      exact (count_outcome wellFormed).1

theorem Reached.wellFormed {forest : Forest V} (reached : forest.Reached) :
    forest.WellFormed := by
  rcases reached with ⟨commands, rfl⟩
  have run (forest : Forest V) (wellFormed : forest.WellFormed) :
      (commands.foldl Forest.perform forest).WellFormed := by
    induction commands generalizing forest with
    | nil => exact wellFormed
    | cons command commands ih => exact ih _ (wellFormed.perform command)
  exact run empty .empty

/-! ## Counting is exact -/

omit [Quoted V] in
theorem countOf_eq {forest : Forest V} (shaped : Shaped forest.nodes) {id : NodeId} {value : V}
    (valued : valueOf forest.nodes id = some value) {number : Nat}
    (known : forest.tallies[id]? = some (.known number)) :
    forest.countOf value = some number := by
  simp [countOf, shaped.find?_eq_some_iff.mpr valued, known]

/-- Without a cycle every path below a value ends. -/
theorem Reached.grounded {forest : Forest V} (reached : forest.Reached)
    (acyclic : ¬ Cyclic forest.nodes) {id : NodeId} {value : V}
    (valued : valueOf forest.nodes id = some value) : Grounded forest.nodes id := by
  have wellFormed := reached.wellFormed
  have adopts := adopts_adoptOrphans wellFormed.shaped
  rcases (count_outcome wellFormed).2.2.2 with ⟨-, -, -, cyclic⟩ | ⟨number, -, -, counts⟩
  · exact (acyclic ((cyclic_adoptOrphans wellFormed.shaped).mp cyclic)).elim
  · exact adopts.below.grounded wellFormed.shaped
      (Nat.ne_of_gt (wellFormed.shaped.pos_of_valueOf valued))
      (counts.grounded id value (by rw [adopts.below.values, valued]))

theorem Reached.of_treeCount {forest : Forest V} (reached : forest.Reached) {number : Nat}
    (counted : forest.treeCount.2 = .ok number) :
    ¬ Cyclic forest.nodes ∧ number = clip forest.trees.ncard := by
  have shaped := reached.wellFormed.shaped
  have adopts := adopts_adoptOrphans shaped
  rw [treeCount_snd] at counted
  rcases (count_outcome reached.wellFormed).2.2.2 with
    ⟨node, failed, -, -⟩ | ⟨result, succeeded, -, counts⟩
  · rw [failed] at counted
    cases counted
  · rw [succeeded] at counted
    cases counted
    refine ⟨?_, by rw [counts.number_eq, trees_adoptOrphans shaped]⟩
    rw [← cyclic_adoptOrphans shaped]
    exact not_cyclic_of_grounded adopts.shaped counts.grounded

/-- Without a cycle a count succeeds, and leaves tallies that are exact up to saturation. -/
theorem Reached.counts_of_acyclic {forest : Forest V} (reached : forest.Reached)
    (acyclic : ¬ Cyclic forest.nodes) :
    forest.treeCount = (forest.count.1, .ok (clip forest.trees.ncard)) ∧
      forest.count.1.nodes = forest.adoptOrphans.nodes ∧
        Counts forest.adoptOrphans forest.count.1.tallies (clip forest.trees.ncard) := by
  have shaped := reached.wellFormed.shaped
  rcases count_outcome reached.wellFormed with ⟨-, nodes_eq, -, outcome⟩
  rcases outcome with ⟨-, -, -, cyclic⟩ | ⟨number, succeeded, -, counts⟩
  · exact (acyclic ((cyclic_adoptOrphans shaped).mp cyclic)).elim
  · rw [← trees_adoptOrphans shaped, ← counts.number_eq]
    refine ⟨Prod.ext (treeCount_fst forest) ?_, nodes_eq, counts⟩
    rw [treeCount_snd, succeeded]
    rfl

/--
A count fails exactly on a cycle. Otherwise it is the number of trees up to saturation, and then so
is the number of trees at every value, zero if one of its slots is empty. It ends by itself.
-/
theorem treeCount_exact {forest : Forest V} (reached : forest.Reached) :
    ((∃ node text, forest.treeCount.2 = .error (.nodeCycle node text)) ↔ Cyclic forest.nodes) ∧
      (¬ Cyclic forest.nodes →
        forest.trees.Finite ∧ forest.treeCount.2 = .ok (min forest.trees.ncard limit) ∧
          ∀ id value, valueOf forest.nodes id = some value →
            (held forest.nodes id).Finite ∧
              forest.treeCount.1.countOf value = some (min (held forest.nodes id).ncard limit) ∧
                ([] ∈ slotsOf forest.nodes id → forest.treeCount.1.countOf value = some 0)) ∧
        ∀ depth, forest.nodes.size < depth → forest.countWithin depth = forest.count := by
  have wellFormed := reached.wellFormed
  have shaped := wellFormed.shaped
  have adopts := adopts_adoptOrphans shaped
  rcases count_outcome wellFormed with ⟨counted, nodes_eq, -, outcome⟩
  refine ⟨?_, ?_, fun depth => countWithin_eq_count wellFormed⟩
  · rw [treeCount_snd, ← cyclic_adoptOrphans shaped]
    rcases outcome with ⟨node, failed, -, cyclic⟩ | ⟨number, succeeded, -, counts⟩
    · rw [failed]
      exact ⟨fun _ => cyclic, fun _ => ⟨node, _, rfl⟩⟩
    · rw [succeeded]
      refine ⟨fun ⟨node, text, failed⟩ => (nomatch failed), fun cyclic => ?_⟩
      exact (not_cyclic_of_grounded adopts.shaped counts.grounded cyclic).elim
  · intro acyclic
    have grounded (id : NodeId) (value : V) (valued : valueOf forest.nodes id = some value) :=
      reached.grounded acyclic valued
    rcases outcome with ⟨-, -, -, cyclic⟩ | ⟨number, succeeded, -, counts⟩
    · exact (acyclic ((cyclic_adoptOrphans shaped).mp cyclic)).elim
    refine ⟨trees_finite shaped grounded, ?_, ?_⟩
    · rw [treeCount_snd, succeeded, counts.number_eq, trees_adoptOrphans shaped]
      rfl
    · intro id value valued
      have adopted_valued : valueOf forest.adoptOrphans.nodes id = some value := by
        rw [adopts.below.values, valued]
      have known := countOf_eq (nodes_eq ▸ counted.shaped) (nodes_eq ▸ adopted_valued)
        (counts.known id value adopted_valued)
      rw [numberAt, adopts.below.held_eq shaped] at known
      rw [treeCount_fst]
      refine ⟨(grounded id value valued).held_finite, known, ?_⟩
      intro empty_mem
      have none_held : (held forest.nodes id).ncard = 0 := by
        rw [← numberAt, numberAt_eq shaped valued (grounded id value valued)]
        exact List.prod_eq_zero (List.mem_map.mpr ⟨[], empty_mem, rfl⟩)
      rw [known, none_held]
      rfl

/-- A value shared by two alternatives is no cycle, and counts in the trees of both. -/
theorem treeCount_diamond :
    let forest : Forest Nat := [.insertEdge 1 0 2, .insertEdge 1 0 3, .insertEdge 2 0 4,
      .insertEdge 3 0 4, .insertEdge 1 1 4].foldl perform empty
    forest.trees.Finite ∧ min forest.trees.ncard limit = 2 := by
  intro forest
  have reached : forest.Reached := ⟨_, rfl⟩
  have counted : forest.treeCount.2 = .ok 2 := by decide +kernel
  have exact := (treeCount_exact reached).2.1 (reached.of_treeCount counted).1
  have same := exact.2.1.symm.trans counted
  injection same with number_eq
  exact ⟨exact.1, number_eq⟩

end Forest

end Cascades
