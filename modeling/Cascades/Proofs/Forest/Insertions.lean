import Cascades.Proofs.Forest.Failing
import Cascades.Proofs.Forest.Index
import Mathlib.Data.List.Forall2

/-!
# Forests depend on what was inserted

The order of insertions decides how the values are numbered and in which order a slot lists them,
and with an index also which edges share a bucket. What a forest shows of its values has none of
this in it: it consists of the values, roots and edges that some insertion names, and of the largest
number of slots that one asks for. Two forests that show the same have the same cycles, at nodes of
the same value the same trees, and so the same numbers of trees.
-/

namespace Cascades

namespace Forest

open Saturating

variable {V : Type}

/-! ## Forests that show the same -/

namespace Shows

variable {forest first second : Forest V} {content : Content V}

theorem fills_iff (shows : forest.Shows content) {id : NodeId} {parent : V}
    (valued : valueOf forest.nodes id = some parent) {slot : Nat} {child : V} :
    content.fills parent slot child ↔
      ∃ other ∈ slotAt forest.nodes id slot, valueOf forest.nodes other = some child := by
  rw [shows.fills]
  constructor
  · rintro ⟨node, other, node_valued, other_valued, listed⟩
    obtain rfl := shows.shaped.distinct _ _ _ node_valued valued
    exact ⟨other, listed, other_valued⟩
  · rintro ⟨other, listed, other_valued⟩
    exact ⟨id, other, valued, other_valued, listed⟩

theorem starts_iff (shows : forest.Shows content) {id : NodeId} {value : V}
    (valued : valueOf forest.nodes id = some value) :
    content.starts value ↔ id ∈ slotAt forest.nodes 0 0 := by
  rw [shows.starts]
  constructor
  · rintro ⟨node, node_valued, listed⟩
    rwa [shows.shaped.distinct _ _ _ node_valued valued] at listed
  · exact fun listed => ⟨id, valued, listed⟩

section Both

variable (one : first.Shows content) (two : second.Shows content)
include one two

theorem counterpart {id : NodeId} {value : V} (valued : valueOf first.nodes id = some value) :
    ∃ other, valueOf second.nodes other = some value :=
  (two.has value).mp ((one.has value).mpr ⟨id, valued⟩)

variable {id other : NodeId} {value : V} (valued : valueOf first.nodes id = some value)
  (other_valued : valueOf second.nodes other = some value)
include valued other_valued

/-- Nodes of the same value list the same values in each of their slots. -/
theorem listed {slot : Nat} {child : NodeId} (child_mem : child ∈ slotAt first.nodes id slot) :
    ∃ counterpart ∈ slotAt second.nodes other slot,
      valueOf second.nodes counterpart = valueOf first.nodes child := by
  rcases one.shaped.listed_value ⟨slot, child_mem⟩ with ⟨named, child_valued⟩
  rw [child_valued]
  exact (two.fills_iff other_valued).mp ((one.fills_iff valued).mpr ⟨child, child_mem, child_valued⟩)

theorem slots_matched :
    List.Forall₂ (fun slot facing => ∀ child ∈ slot, ∃ counterpart ∈ facing,
      valueOf second.nodes counterpart = valueOf first.nodes child)
      (slotsOf first.nodes id) (slotsOf second.nodes other) := by
  refine List.forall₂_iff_get.mpr ⟨(one.arity valued).trans (two.arity other_valued).symm, ?_⟩
  intro position bounded facing child child_mem
  have here : child ∈ slotAt first.nodes id position := by
    simpa [slotAt, List.getD_eq_getElem?_getD, bounded] using child_mem
  rcases one.listed two valued other_valued here with ⟨counterpart, listed, same⟩
  refine ⟨counterpart, ?_, same⟩
  simpa [slotAt, List.getD_eq_getElem?_getD, facing] using listed

theorem transGen {descendant : NodeId}
    (path : Relation.TransGen (Lists first.nodes) id descendant) :
    ∃ counterpart, valueOf second.nodes counterpart = valueOf first.nodes descendant ∧
      Relation.TransGen (Lists second.nodes) other counterpart := by
  induction path with
  | single lists =>
      rcases lists with ⟨slot, child_mem⟩
      rcases one.listed two valued other_valued child_mem with ⟨counterpart, listed, same⟩
      exact ⟨counterpart, same, .single ⟨slot, listed⟩⟩
  | tail path lists ih =>
      rcases ih with ⟨middle, same, middle_path⟩
      rcases Relation.TransGen.tail'_iff.mp path with ⟨last, -, into⟩
      rcases one.shaped.listed_value into with ⟨named, named_valued⟩
      rcases lists with ⟨slot, child_mem⟩
      rcases one.listed two named_valued (same.trans named_valued) child_mem with
        ⟨counterpart, listed, child_same⟩
      exact ⟨counterpart, child_same, middle_path.tail ⟨slot, listed⟩⟩

end Both

theorem cyclic (one : first.Shows content) (two : second.Shows content)
    (cyclic : Cyclic first.nodes) : Cyclic second.nodes := by
  rcases cyclic with ⟨id, loop⟩
  rcases Relation.TransGen.tail'_iff.mp loop with ⟨last, -, into⟩
  rcases one.shaped.listed_value into with ⟨value, valued⟩
  rcases one.counterpart two valued with ⟨other, other_valued⟩
  rcases one.transGen two valued other_valued loop with ⟨back, same, path⟩
  obtain rfl := two.shaped.distinct _ _ _ (same.trans valued) other_valued
  exact ⟨back, path⟩

mutual

theorem holdsTree (one : first.Shows content) (two : second.Shows content) {id other : NodeId} :
    (tree : Tree V) → valueOf second.nodes other = valueOf first.nodes id →
      HoldsTree first.nodes id tree → HoldsTree second.nodes other tree
  | .node _ children, same, ⟨valued, holds⟩ =>
      ⟨same.trans valued, one.holdsTrees two children
        (one.slots_matched two valued (same.trans valued)) holds⟩

theorem holdsTrees (one : first.Shows content) (two : second.Shows content) :
    {slots others : List (List NodeId)} → (trees : List (Tree V)) →
      List.Forall₂ (fun slot facing => ∀ child ∈ slot, ∃ counterpart ∈ facing,
        valueOf second.nodes counterpart = valueOf first.nodes child) slots others →
        HoldsTrees first.nodes slots trees → HoldsTrees second.nodes others trees
  | [], [], [], _, _ => trivial
  | _ :: _, _ :: _, tree :: trees, .cons matched rest, ⟨⟨child, child_mem, holds⟩, later⟩ =>
      have ⟨counterpart, listed, same⟩ := matched child child_mem
      ⟨⟨counterpart, listed, one.holdsTree two tree same holds⟩,
        one.holdsTrees two trees rest later⟩

end

theorem held_subset (one : first.Shows content) (two : second.Shows content) {id other : NodeId}
    (same : valueOf second.nodes other = valueOf first.nodes id) :
    held first.nodes id ⊆ held second.nodes other :=
  fun tree => one.holdsTree two tree same

theorem held_eq (one : first.Shows content) (two : second.Shows content) {id other : NodeId}
    (same : valueOf second.nodes other = valueOf first.nodes id) :
    held first.nodes id = held second.nodes other :=
  (one.held_subset two same).antisymm (two.held_subset one same.symm)

/-- A node whose value starts a tree, or that nothing lists, is one in every such forest. -/
theorem mem_starts_of_mem (one : first.Shows content) (two : second.Shows content)
    {id other : NodeId} {value : V} (valued : valueOf first.nodes id = some value)
    (other_valued : valueOf second.nodes other = some value) (id_mem : id ∈ first.starts) :
    other ∈ second.starts := by
  rw [mem_starts two.shaped]
  rcases List.mem_append.mp id_mem with declared | orphan
  · exact .inl ⟨0, (two.starts_iff other_valued).mp ((one.starts_iff valued).mpr declared)⟩
  · have unlisted := ((mem_orphans one.shaped).mp orphan).2
    by_cases root : Lists second.nodes 0 other
    · exact .inl root
    refine .inr ⟨⟨value, other_valued⟩, ?_⟩
    rintro parent ⟨slot, listed⟩
    have parent_ne : parent ≠ 0 := by
      rintro rfl
      exact root ⟨slot, listed⟩
    have parent_lt : parent < second.nodes.size := by
      by_contra beyond
      rw [slotAt, slotsOf_eq_nil_of_size_le (Nat.le_of_not_lt beyond)] at listed
      simp at listed
    rcases two.shaped.valued parent (Nat.pos_of_ne_zero parent_ne) parent_lt with
      ⟨named, parent_valued⟩
    rcases two.counterpart one parent_valued with ⟨lister, lister_valued⟩
    rcases two.listed one parent_valued lister_valued listed with ⟨child, child_mem, same⟩
    obtain rfl := one.shaped.distinct _ _ _ (same.trans other_valued) valued
    exact unlisted lister ⟨slot, child_mem⟩

theorem trees_subset (one : first.Shows content) (two : second.Shows content) :
    first.trees ⊆ second.trees := by
  rintro tree ⟨id, id_mem, holds⟩
  rcases valueOf_of_mem_starts one.shaped id_mem with ⟨value, valued⟩
  rcases one.counterpart two valued with ⟨other, other_valued⟩
  exact ⟨other, one.mem_starts_of_mem two valued other_valued id_mem,
    one.holdsTree two tree (other_valued.trans valued.symm) holds⟩

theorem trees_eq (one : first.Shows content) (two : second.Shows content) :
    first.trees = second.trees :=
  (one.trees_subset two).antisymm (two.trees_subset one)

end Shows

section Answers

variable [DecidableEq V] [Quoted V] {forest first second : Forest V} {content : Content V}

/-- After a count without a cycle every value has its number of trees, and nothing else has one. -/
theorem Reached.countOf_treeCount (reached : forest.Reached) (acyclic : ¬ Cyclic forest.nodes)
    {value : V} {number : Nat} :
    forest.treeCount.1.countOf value = some number ↔
      ∃ id, valueOf forest.nodes id = some value ∧ clip (numberAt forest.nodes id) = number := by
  have shaped := reached.wellFormed.shaped
  have below := (adopts_adoptOrphans shaped).below
  have counted : Shaped forest.treeCount.1.nodes := (reached.perform .count).wellFormed.shaped
  rcases reached.counts_of_acyclic acyclic with ⟨-, nodes_eq, counts⟩
  rw [countOf_eq_some_iff counted, treeCount_fst, nodes_eq]
  refine exists_congr fun id => ?_
  rw [below.values]
  refine and_congr_right fun valued => ?_
  rw [counts.known id value ((below.values id).trans valued), numberAt, below.held_eq shaped,
    Option.some_inj, Tally.known.injEq, numberAt]

theorem Shows.countOf_eq (one : first.Shows content) (two : second.Shows content)
    (first_reached : first.Reached) (second_reached : second.Reached)
    (acyclic : ¬ Cyclic first.nodes) (value : V) :
    first.treeCount.1.countOf value = second.treeCount.1.countOf value := by
  have other_acyclic : ¬ Cyclic second.nodes := fun cyclic => acyclic (two.cyclic one cyclic)
  have numberAt_eq {id other : NodeId} (valued : valueOf first.nodes id = some value)
      (other_valued : valueOf second.nodes other = some value) :
      numberAt first.nodes id = numberAt second.nodes other := by
    rw [numberAt, numberAt, one.held_eq two (other_valued.trans valued.symm)]
  refine Option.ext fun number => ?_
  rw [first_reached.countOf_treeCount acyclic, second_reached.countOf_treeCount other_acyclic]
  constructor
  · rintro ⟨id, valued, known⟩
    rcases one.counterpart two valued with ⟨other, other_valued⟩
    exact ⟨other, other_valued, by rw [← numberAt_eq valued other_valued, known]⟩
  · rintro ⟨other, other_valued, known⟩
    rcases two.counterpart one other_valued with ⟨id, valued⟩
    exact ⟨id, valued, by rw [numberAt_eq valued other_valued, known]⟩

end Answers

/-! ## What insertions leave in a forest -/

variable [DecidableEq V]

namespace Command

/-- The values that a command mentions. A refused edge mentions none. -/
def values : Command V → List V
  | .insertNode value _ | .insertRoot value => [value]
  | .insertEdge parent _ child => if parent = child then [] else [parent, child]
  | .count | .unrank _ => []

/-- The edge of a command that is not refused. -/
def edge? : Command V → Option (V × Nat × V)
  | .insertEdge parent slot child => if parent = child then none else some (parent, slot, child)
  | .insertNode .. | .insertRoot _ | .count | .unrank _ => none

/-- The root that a command declares. -/
def root? : Command V → Option V
  | .insertRoot value => some value
  | .insertNode .. | .insertEdge .. | .count | .unrank _ => none

/-- How many slots a command asks for at a value, an edge as many as reach up to its own. -/
def width (value : V) : Command V → Nat
  | .insertNode named arity => if value = named then arity else 0
  | .insertEdge parent slot child => if parent ≠ child ∧ value = parent then slot + 1 else 0
  | .insertRoot _ | .count | .unrank _ => 0

end Command

/-- The largest number of slots that commands ask for at a value. -/
def widest (commands : List (Command V)) (value : V) : Nat :=
  commands.foldl (fun most command => max most (command.width value)) 0

/--
Insertions that mention the same values, edges and roots, and ask for as many slots: where the edges
reach farther than all declared arities, these need not agree.
-/
structure SameInsertions (commands others : List (Command V)) : Prop where
  inserts : ∀ command ∈ commands ++ others, command.asks = false
  values : ∀ value, (∃ command ∈ commands, value ∈ command.values) ↔
    ∃ command ∈ others, value ∈ command.values
  edges : ∀ edge, some edge ∈ commands.map Command.edge? ↔ some edge ∈ others.map Command.edge?
  roots : ∀ value, some value ∈ commands.map Command.root? ↔ some value ∈ others.map Command.root?
  widths : ∀ value, widest commands value = widest others value

namespace Content

/-- The content after an insertion. -/
def after (content : Content V) : Command V → Content V
  | .insertNode value arity => (content.add [value]).declare value arity
  | .insertEdge parent slot child =>
      if parent = child then content
      else (((content.add [parent]).add [child]).declare parent (slot + 1)).fill parent slot [child]
  | .insertRoot value => (content.add [value]).start [value]
  | .count | .unrank _ => content

section After

variable {content : Content V}

theorem has_after (command : Command V) (value : V) :
    (content.after command).has value ↔ content.has value ∨ value ∈ command.values := by
  cases command with
  | insertEdge parent slot child =>
      simp only [after, Command.values]
      split <;> simp [add, declare, fill, or_assoc]
  | _ => simp [after, Command.values, add, declare, start]

theorem starts_after (command : Command V) (value : V) :
    (content.after command).starts value ↔ content.starts value ∨ command.root? = some value := by
  cases command with
  | insertEdge parent slot child =>
      simp only [after, Command.root?]
      split <;> simp [add, declare, fill]
  | _ => simp [after, Command.root?, add, declare, start, eq_comm]

theorem fills_after (command : Command V) (parent : V) (slot : Nat) (child : V) :
    (content.after command).fills parent slot child ↔
      content.fills parent slot child ∨ command.edge? = some (parent, slot, child) := by
  cases command with
  | insertEdge named position listed =>
      simp only [after, Command.edge?]
      split
      · simp
      · simp only [fill, declare, add, List.mem_singleton, Option.some.injEq, Prod.mk.injEq]
        rw [eq_comm (a := parent), eq_comm (a := slot), eq_comm (a := child)]
  | _ => simp [after, Command.edge?, add, declare, start]

theorem arity_after (command : Command V) (value : V) :
    (content.after command).arity value = max (content.arity value) (command.width value) := by
  cases command with
  | insertNode named arity =>
      by_cases same : value = named
      · subst same
        simp [after, add, declare, Command.width]
      · simp [after, add, declare, Command.width, same]
  | insertEdge parent slot child =>
      by_cases loop : parent = child
      · simp [after, Command.width, loop]
      · by_cases same : value = parent
        · subst same
          simp [after, add, declare, fill, Command.width, loop]
        · simp [after, add, declare, fill, Command.width, loop, same]
  | _ => simp [after, add, start, Command.width]

variable (commands : List (Command V))

theorem has_foldl (value : V) : (commands.foldl after content).has value ↔
    content.has value ∨ ∃ command ∈ commands, value ∈ command.values := by
  induction commands generalizing content with
  | nil => simp
  | cons command commands ih => simp [ih, has_after, or_assoc]

theorem starts_foldl (value : V) : (commands.foldl after content).starts value ↔
    content.starts value ∨ some value ∈ commands.map Command.root? := by
  induction commands generalizing content with
  | nil => simp
  | cons command commands ih => simp [ih, starts_after, or_assoc, eq_comm]

theorem fills_foldl (parent : V) (slot : Nat) (child : V) :
    (commands.foldl after content).fills parent slot child ↔
      content.fills parent slot child ∨ some (parent, slot, child) ∈ commands.map Command.edge? := by
  induction commands generalizing content with
  | nil => simp
  | cons command commands ih => simp [ih, fills_after, or_assoc, eq_comm]

theorem arity_foldl (value : V) : (commands.foldl after content).arity value =
    commands.foldl (fun most command => max most (command.width value)) (content.arity value) := by
  induction commands generalizing content with
  | nil => rfl
  | cons command commands ih => rw [List.foldl_cons, List.foldl_cons, ih, arity_after]

end After

end Content

namespace Shows

variable [Quoted V] {forest : Forest V} {content : Content V}

/-- An insertion does to a forest what it does to the content. -/
theorem perform (shows : forest.Shows content) {command : Command V}
    (inserts : command.asks = false) :
    (forest.perform command).Shows (content.after command) := by
  cases command with
  | insertNode value arity => exact shows.insertNode value arity
  | insertEdge parent slot child =>
      rw [perform_insertEdge, Content.after]
      split
      · exact shows
      · have parent_valued : valueOf ((forest.intern parent).1.intern child).1.nodes
            (forest.intern parent).2 = some parent :=
          Shaped.valueOf_intern_of_valueOf (shows.shaped.valueOf_intern parent)
        exact ((shows.intern parent).intern child).link parent_valued
          ((shows.shaped.intern parent).valueOf_intern child) slot
  | insertRoot value => exact shows.insertRoot value
  | count => cases inserts
  | unrank rank => cases inserts

theorem foldl (shows : forest.Shows content) {commands : List (Command V)}
    (inserts : ∀ command ∈ commands, command.asks = false) :
    (commands.foldl Forest.perform forest).Shows (commands.foldl Content.after content) := by
  induction commands generalizing forest content with
  | nil => exact shows
  | cons command commands ih =>
      exact ih (shows.perform (inserts command List.mem_cons_self)) fun later later_mem =>
        inserts later (List.mem_cons_of_mem command later_mem)

end Shows

/-- The same insertions, in whatever order, make forests that show the same. -/
theorem SameInsertions.shows [Quoted V] {commands others : List (Command V)}
    (same : SameInsertions commands others) :
    ∃ content, (commands.foldl perform empty).Shows content ∧
      (others.foldl perform empty).Shows content := by
  have inserts (command : Command V) (command_mem : command ∈ commands) :=
    same.inserts command (List.mem_append_left others command_mem)
  have others_insert (command : Command V) (command_mem : command ∈ others) :=
    same.inserts command (List.mem_append_right commands command_mem)
  refine ⟨_, Shows.empty.foldl inserts, (Shows.empty.foldl others_insert).congr ?_ ?_ ?_ ?_⟩
  · intro value
    rw [Content.has_foldl, Content.has_foldl, same.values]
  · intro value
    rw [Content.starts_foldl, Content.starts_foldl, same.roots]
  · intro parent slot child
    rw [Content.fills_foldl, Content.fills_foldl, same.edges]
  · intro value
    rw [Content.arity_foldl, Content.arity_foldl]
    exact same.widths value

/-- Questions in any order and number. -/
theorem asked_foldl [Quoted V] {forest : Forest V} {questions : List (Command V)}
    (ask : ∀ command ∈ questions, command.asks = true) :
    forest.Asked (questions.foldl perform forest) := by
  induction questions using List.reverseRecOn with
  | nil => exact .none
  | append_singleton questions question ih =>
      rw [List.foldl_append, List.foldl_cons, List.foldl_nil]
      have asked := ih fun command command_mem => ask command (List.mem_append_left _ command_mem)
      have asks := ask question (by simp)
      cases question with
      | count => exact .count asked
      | unrank rank => exact .unrank rank asked
      | _ => cases asks

end Forest

namespace IndexedForest

open Forest Saturating

variable {V : Type} [DecidableEq V] [Quoted V]

/-- The trees that the ranks below a number stand for. -/
def unranked (hash : Option V → UInt64) (indexed : IndexedForest V) (count : Nat) :
    Set (Tree V) :=
  { tree | ∃ rank < count, (indexed.unrank hash rank).2 = .ok tree }

section Answers

variable {hash : Option V → UInt64} {indexed : IndexedForest V}
  (faithful : indexed.Faithful hash) (reached : indexed.forest.Reached)
include faithful reached

theorem treeCount_of_cyclic (cyclic : Cyclic indexed.forest.nodes) :
    ∃ node text, (indexed.treeCount hash).2 = .error (.nodeCycle node text) := by
  rcases reached.fails_of_cyclic cyclic with ⟨node, text, failed, -⟩
  exact ⟨node, text, faithful.treeCount.2.2.trans failed⟩

theorem treeCount_of_acyclic (acyclic : ¬ Cyclic indexed.forest.nodes) :
    (indexed.treeCount hash).2 = .ok (min indexed.forest.trees.ncard limit) :=
  faithful.treeCount.2.2.trans (reached.treeCount_of_acyclic acyclic)

/-- A count below the largest number is exact. -/
theorem ncard_le_of_treeCount {count : Nat} (counted : (indexed.treeCount hash).2 = .ok count)
    (below : count < limit) : indexed.forest.trees.ncard ≤ limit := by
  have number_eq := (reached.of_treeCount (faithful.treeCount.2.2.symm.trans counted)).2
  rw [clip] at number_eq
  omega

/-- Whatever was asked before, the ranks below a count that is exact stand for all trees. -/
theorem unranked_eq (acyclic : ¬ Cyclic indexed.forest.nodes)
    (fits : indexed.forest.trees.ncard ≤ limit) {questions : List (Command V)}
    (ask : ∀ command ∈ questions, command.asks = true) :
    (questions.foldl (perform hash) indexed).unranked hash (min indexed.forest.trees.ncard limit) =
      indexed.forest.trees := by
  have counted := reached.treeCount_of_acyclic acyclic
  have asked : indexed.forest.Asked (questions.foldl Forest.perform indexed.forest) :=
    asked_foldl ask
  rcases faithful.foldl questions with ⟨later_faithful, forest_eq⟩
  have unrank_eq (rank : Nat) :
      ((questions.foldl (perform hash) indexed).unrank hash rank).2 =
        ((questions.foldl Forest.perform indexed.forest).unrank rank).2 := by
    rw [(later_faithful.unrank rank).2.2, forest_eq]
  ext tree
  constructor
  · rintro ⟨rank, -, unranked⟩
    rw [unrank_eq] at unranked
    exact ((reached.unrank_iff counted fits asked).mp unranked).1
  · intro tree_mem
    have unranked := (reached.unrank_iff counted fits asked).mpr ⟨tree_mem, rfl⟩
    exact ⟨_, reached.lt_of_unrank counted asked unranked, (unrank_eq _).trans unranked⟩

end Answers

/--
Forests of the same insertions, in whatever order, with whatever repetitions and refused edges among
them and with whatever hash behind their indexes, answer alike. Either both counts fail because of a
cycle, or both are the same number, every value has the same number of trees, and if the number of
trees fits, the ranks below it stand for the same trees, whatever else was asked before.
-/
theorem insertions_determine_answers {commands others : List (Command V)}
    (same : SameInsertions commands others) (hash other_hash : Option V → UInt64) :
    let first := commands.foldl (perform hash) empty
    let second := others.foldl (perform other_hash) empty
    ((∃ node text, (first.treeCount hash).2 = .error (.nodeCycle node text)) ∧
        ∃ node text, (second.treeCount other_hash).2 = .error (.nodeCycle node text)) ∨
      ∃ count, (first.treeCount hash).2 = .ok count ∧
        (second.treeCount other_hash).2 = .ok count ∧
          (∀ value, (first.treeCount hash).1.countOf value =
            (second.treeCount other_hash).1.countOf value) ∧
            (first.forest.trees.ncard ≤ limit →
              ∀ questions : List (Command V), (∀ command ∈ questions, command.asks = true) →
                (questions.foldl (perform hash) first).unranked hash count = first.forest.trees ∧
                  (questions.foldl (perform other_hash) second).unranked other_hash count =
                    first.forest.trees) := by
  intro first second
  rcases Faithful.foldl_empty hash commands with ⟨first_faithful, first_eq⟩
  rcases Faithful.foldl_empty other_hash others with ⟨second_faithful, second_eq⟩
  have first_reached : first.forest.Reached := ⟨commands, first_eq⟩
  have second_reached : second.forest.Reached := ⟨others, second_eq⟩
  rcases same.shows with ⟨content, one, two⟩
  rw [← first_eq] at one
  rw [← second_eq] at two
  by_cases cyclic : Cyclic first.forest.nodes
  · exact .inl ⟨treeCount_of_cyclic first_faithful first_reached cyclic,
      treeCount_of_cyclic second_faithful second_reached (one.cyclic two cyclic)⟩
  · have other_acyclic : ¬ Cyclic second.forest.nodes := fun other => cyclic (two.cyclic one other)
    refine .inr ⟨_, treeCount_of_acyclic first_faithful first_reached cyclic, ?_, ?_, ?_⟩
    · rw [one.trees_eq two]
      exact treeCount_of_acyclic second_faithful second_reached other_acyclic
    · intro value
      rw [countOf, countOf, first_faithful.treeCount.2.1, second_faithful.treeCount.2.1]
      exact one.countOf_eq two first_reached second_reached cyclic value
    · intro fits questions ask
      refine ⟨unranked_eq first_faithful first_reached cyclic fits ask, ?_⟩
      rw [one.trees_eq two] at fits ⊢
      exact unranked_eq second_faithful second_reached other_acyclic fits ask

/--
The same insertions backwards, with two repetitions and a refused edge, and without the declaration
of slots that the edges fill anyway. With the first hash all edges of a slot share a bucket.
-/
theorem insertions_determine_answers_reordered :
    let commands : List (Command Nat) :=
      [.insertNode 1 2, .insertEdge 1 0 2, .insertEdge 1 0 3, .insertEdge 1 1 3, .insertRoot 3]
    let others : List (Command Nat) :=
      [.insertRoot 3, .insertEdge 1 1 3, .insertEdge 4 0 4, .insertEdge 1 0 3, .insertRoot 3,
        .insertEdge 1 0 2, .insertEdge 1 0 3]
    let hash : Option Nat → UInt64 := fun _ => 0
    let other_hash : Option Nat → UInt64 := fun value => .ofNat (value.getD 9)
    let first := commands.foldl (perform hash) empty
    let second := others.foldl (perform other_hash) empty
    SameInsertions commands others ∧ (second.treeCount other_hash).2 = .ok 3 ∧
      first.unranked hash 3 = second.unranked other_hash 3 := by
  intro commands others hash other_hash first second
  have same : SameInsertions commands others := by
    refine ⟨by decide, ?_, ?_, ?_, ?_⟩
    · intro value
      simp [commands, others, Command.values]
      tauto
    · intro edge
      simp [commands, others, Command.edge?]
      tauto
    · intro value
      simp [commands, others, Command.root?]
    · intro value
      simp only [commands, others, widest, List.foldl, Command.width]
      split_ifs <;> simp_all
  have counted : (first.treeCount hash).2 = .ok 3 := by decide +kernel
  have run : first.Faithful hash ∧ first.forest = commands.foldl Forest.perform .empty :=
    Faithful.foldl_empty hash commands
  have reached : first.forest.Reached := ⟨commands, run.2⟩
  have fits := ncard_le_of_treeCount run.1 reached counted (by decide +kernel)
  refine ⟨same, ?_⟩
  rcases insertions_determine_answers same hash other_hash with
    ⟨⟨node, text, failed⟩, -⟩ | ⟨count, first_counted, second_counted, -, trees⟩
  · exact nomatch counted.symm.trans failed
  · obtain rfl := Except.ok.inj (counted.symm.trans first_counted)
    have both := trees fits [] (List.forall_mem_nil _)
    rw [List.foldl_nil, List.foldl_nil] at both
    exact ⟨second_counted, both.1.trans both.2.symm⟩

end IndexedForest

end Cascades
