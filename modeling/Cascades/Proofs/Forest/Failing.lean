import Cascades.Proofs.Forest.Questions

/-!
# Failing counts

A count that meets a cycle stops in the middle of its walk. By then some nodes are counted, some are
underway and some have not been met. Whatever is known of the numbers of trees at that point is
right: it was found out below nodes that no cycle is reachable from, and nothing of an earlier count
is left that an insertion could have made wrong.

No command removes anything from a slot, so a cycle stays, and all later questions fail.
-/

namespace Cascades

namespace Forest

open Saturating

variable {V : Type}

/-- Some node at or below a node lies below itself. -/
def ReachesCycle (nodes : Array (ForestNode V)) (id : NodeId) : Prop :=
  ∃ other, Relation.ReflTransGen (Lists nodes) id other ∧
    Relation.TransGen (Lists nodes) other other

theorem Grounded.not_reachesCycle {nodes : Array (ForestNode V)} {id : NodeId}
    (grounded : Grounded nodes id) : ¬ ReachesCycle nodes id := by
  rintro ⟨other, path, loop⟩
  have below : Grounded nodes other := by
    clear loop
    induction path with
    | refl => exact grounded
    | tail _ lists ih => exact ih.child lists
  exact below.not_transGen loop

section Exact

variable [DecidableEq V]

/--
The numbers of trees that are known are exact up to saturation, and known only of values that no
cycle is reachable from.
-/
def TalliesExact (forest : Forest V) : Prop :=
  ∀ value number, forest.countOf value = some number →
    ∃ id, valueOf forest.nodes id = some value ∧ ¬ ReachesCycle forest.nodes id ∧
      (held forest.nodes id).Finite ∧ number = min (held forest.nodes id).ncard limit

variable {forest : Forest V}

theorem countOf_eq_some_iff (shaped : Shaped forest.nodes) {value : V} {number : Nat} :
    forest.countOf value = some number ↔ ∃ id, valueOf forest.nodes id = some value ∧
      forest.tallies[id]? = some (.known number) := by
  constructor
  · intro counted
    rw [countOf] at counted
    cases found : forest.find? value with
    | none =>
        rw [found] at counted
        cases counted
    | some id =>
        rw [found] at counted
        refine ⟨id, shaped.find?_eq_some_iff.mp found, ?_⟩
        dsimp only at counted
        split at counted
        · rename_i known
          rw [known, Option.some.inj counted]
        · cases counted
  · rintro ⟨id, valued, known⟩
    exact countOf_eq shaped valued known

theorem talliesExact_of_sound (shaped : Shaped forest.nodes)
    (sound : Sound forest.nodes forest.tallies) : forest.TalliesExact := by
  intro value number counted
  rcases (countOf_eq_some_iff shaped).mp counted with ⟨id, valued, known⟩
  rcases sound id number known with ⟨grounded, exact_⟩
  refine ⟨id, valued, grounded.not_reachesCycle, grounded.held_finite, ?_⟩
  rw [exact_, choicesAt, ← numberAt_eq shaped valued grounded]
  rfl

/-- Right after a count, failed or not, what is known is exact. -/
theorem talliesExact_count (wellFormed : forest.WellFormed) : forest.count.1.TalliesExact := by
  rcases count_outcome wellFormed with ⟨counted, nodes_eq, sound, -⟩
  exact talliesExact_of_sound counted.shaped (nodes_eq ▸ sound)

end Exact

/-! ## A cycle stays -/

section Stays

variable {forest : Forest V}

theorem Cyclic.mono {nodes others : Array (ForestNode V)} (cyclic : Cyclic nodes)
    (kept : ∀ parent child, Lists nodes parent child → Lists others parent child) :
    Cyclic others := by
  rcases cyclic with ⟨id, loop⟩
  exact ⟨id, Relation.TransGen.mono kept id id loop⟩

theorem Cyclic.ensureSlots (cyclic : Cyclic forest.nodes) (id : NodeId) (arity : Nat) :
    Cyclic (forest.ensureSlots id arity).nodes := by
  refine cyclic.mono fun parent child lists => ?_
  simpa only [Lists, slotAt_ensureSlots] using lists

theorem Cyclic.link (cyclic : Cyclic forest.nodes) {parent : NodeId}
    (bounded : parent < forest.nodes.size) (slot : Nat) (child : NodeId) :
    Cyclic (forest.link parent slot child).nodes := by
  by_cases child_mem : child ∈ slotAt forest.nodes parent slot
  · rwa [link_of_mem child_mem]
  · exact cyclic.mono fun _ _ lists => (lists_link child_mem bounded).mpr (.inl lists)

variable [DecidableEq V]

theorem Cyclic.intern (cyclic : Cyclic forest.nodes) (value : V) :
    Cyclic (forest.intern value).1.nodes := by
  rw [Forest.intern]
  split
  · exact cyclic
  · exact cyclic.mono fun _ _ lists => lists_push.mpr lists

variable [Quoted V]

theorem Cyclic.perform (cyclic : Cyclic forest.nodes) (wellFormed : forest.WellFormed)
    (command : Command V) : Cyclic (forest.perform command).nodes := by
  cases asks : command.asks with
  | true =>
      rw [perform_of_asks asks, (count_outcome wellFormed).2.1]
      exact (cyclic_adoptOrphans wellFormed.shaped).mpr cyclic
  | false =>
      cases command with
      | insertNode value arity => exact (cyclic.intern value).ensureSlots _ arity
      | insertEdge parent slot child =>
          rw [perform_insertEdge]
          split
          · exact cyclic
          · have valued : valueOf ((forest.intern parent).1.intern child).1.nodes
                (forest.intern parent).2 = some parent :=
              Shaped.valueOf_intern_of_valueOf (wellFormed.shaped.valueOf_intern parent)
            exact ((cyclic.intern parent).intern child).link (lt_size_of_valueOf valued) slot _
      | insertRoot value =>
          exact (cyclic.intern value).link (wellFormed.shaped.intern value).nonempty 0 _
      | count => cases asks
      | unrank rank => cases asks

/-- No sequence of commands breaks a cycle. -/
theorem Cyclic.foldl (cyclic : Cyclic forest.nodes) (wellFormed : forest.WellFormed)
    (commands : List (Command V)) : Cyclic (commands.foldl Forest.perform forest).nodes := by
  induction commands generalizing forest with
  | nil => exact cyclic
  | cons command commands ih =>
      exact ih (cyclic.perform wellFormed command) (wellFormed.perform command)

end Stays

/-! ## All later questions fail -/

variable [DecidableEq V] [Quoted V] {forest : Forest V}

omit [DecidableEq V] in
theorem failure_of_treeCount {failure : Failure} (failed : forest.treeCount.2 = .error failure) :
    ∃ node text, failure = .nodeCycle node text := by
  rw [treeCount_snd] at failed
  cases outcome : forest.count.2 with
  | error node =>
      rw [outcome] at failed
      exact ⟨node, _, (Except.error.inj failed).symm⟩
  | ok number =>
      rw [outcome] at failed
      cases failed

/-- Whatever is asked of a forest with a cycle fails because of the cycle. -/
theorem Reached.fails_of_cyclic (reached : forest.Reached) (cyclic : Cyclic forest.nodes) :
    ∃ node text, forest.treeCount.2 = .error (.nodeCycle node text) ∧
      ∀ rank, (forest.unrank rank).2 = .error (.nodeCycle node text) := by
  rcases counted : forest.treeCount with ⟨after, failure | number⟩
  · rcases failure_of_treeCount (congrArg Prod.snd counted) with ⟨node, text, rfl⟩
    refine ⟨node, text, rfl, fun rank => ?_⟩
    rw [unrank, counted]
  · exact ((reached.of_treeCount (congrArg Prod.snd counted)).1 cyclic).elim

theorem Reached.foldl (reached : forest.Reached) (commands : List (Command V)) :
    (commands.foldl Forest.perform forest).Reached := by
  induction commands generalizing forest with
  | nil => exact reached
  | cons command commands ih => exact ih (reached.perform command)

/--
A count only fails because of a cycle. What is known then is exact, and of no value from which a
cycle is reachable. Whatever commands follow, every later count and unranking fails in the same way,
and leaves nothing wrong behind either.
-/
theorem failing_leaves_exact (reached : forest.Reached) {failure : Failure}
    (failed : forest.treeCount.2 = .error failure) :
    (∃ node text, failure = .nodeCycle node text) ∧ forest.treeCount.1.TalliesExact ∧
      ∀ commands : List (Command V),
        let later := commands.foldl perform forest.treeCount.1
        (∃ node text, later.treeCount.2 = .error (.nodeCycle node text)) ∧
          (∀ rank, ∃ node text, (later.unrank rank).2 = .error (.nodeCycle node text)) ∧
            later.treeCount.1.TalliesExact := by
  have wellFormed := reached.wellFormed
  refine ⟨failure_of_treeCount failed, treeCount_fst forest ▸ talliesExact_count wellFormed, ?_⟩
  intro commands later
  have cyclic : Cyclic forest.nodes := by
    by_contra acyclic
    rw [reached.treeCount_of_acyclic acyclic] at failed
    cases failed
  have counted : forest.treeCount.1.Reached := reached.perform .count
  have counted_cyclic : Cyclic forest.treeCount.1.nodes := cyclic.perform wellFormed .count
  have later_reached : later.Reached := counted.foldl commands
  rcases later_reached.fails_of_cyclic (counted_cyclic.foldl counted.wellFormed commands) with
    ⟨node, text, count_failed, unrank_failed⟩
  exact ⟨⟨node, text, count_failed⟩, fun rank => ⟨node, text, unrank_failed rank⟩,
    treeCount_fst later ▸ talliesExact_count later_reached.wellFormed⟩

/--
The two trees at the value 0 are counted before the cycle of 3 and 4 is met, and stay known. One more
root does not help.
-/
theorem failing_leaves_exact_pair :
    let forest : Forest Nat := [.insertEdge 0 0 1, .insertEdge 0 0 2, .insertEdge 3 0 4, .count,
      .insertEdge 4 0 3].foldl perform empty
    forest.treeCount.2 = .error (.nodeCycle 4 "Some(3)") ∧
      (∃ id, valueOf forest.treeCount.1.nodes id = some 0 ∧
        2 = min (held forest.treeCount.1.nodes id).ncard limit) ∧
          ∃ node text, ((forest.treeCount.1.insertRoot 0).unrank 0).2 =
            .error (.nodeCycle node text) := by
  intro forest
  have reached : forest.Reached := ⟨_, rfl⟩
  have failed : forest.treeCount.2 = .error (.nodeCycle 4 "Some(3)") := by decide +kernel
  have known : forest.treeCount.1.countOf 0 = some 2 := by decide +kernel
  rcases failing_leaves_exact reached failed with ⟨-, exact_, later⟩
  rcases exact_ 0 2 known with ⟨id, valued, -, -, number_eq⟩
  exact ⟨failed, ⟨id, valued, number_eq⟩, (later [.insertRoot 0]).2.1 0⟩

end Forest

end Cascades
