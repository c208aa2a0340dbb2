import Cascades.Proofs.Forest.Enumeration
import Cascades.Proofs.Forest.Listing

/-!
# What asking leaves behind

Counting and unranking let trees start from every value that nothing lists, and a value keeps this
when it is listed later. So a question acts on the rest of a history exactly as declaring all these
values as roots would, and a forest that was asked something may have more trees in the end than the
one of the same insertions alone.

Below the universal root questions change nothing: the values keep their slots, cycles are neither
made nor broken, and no tree is lost.
-/

namespace Cascades

namespace Forest

open Saturating

variable {V : Type} [DecidableEq V] [Quoted V]

namespace Command

/-- Commands that only ask for something. -/
def asks : Command V → Bool
  | .count | .unrank _ => true
  | .insertNode .. | .insertEdge .. | .insertRoot _ => false

end Command

/-- The values that nothing lists. -/
def orphanValues (forest : Forest V) : List V :=
  forest.orphans.filterMap (valueOf forest.nodes)

/-- A command, or instead of a question the values that nothing lists declared as roots. -/
def declared (forest : Forest V) (command : Command V) : List (Command V) :=
  if command.asks then forest.orphanValues.map .insertRoot else [command]

/-- A history in which every question is replaced by what it leaves behind. -/
def unasked (forest : Forest V) : List (Command V) → List (Command V)
  | [] => []
  | command :: rest => forest.declared command ++ unasked (forest.perform command) rest

/-! ## Answers depend on the nodes only -/

section Answers

variable {forest other : Forest V}

omit [DecidableEq V] [Quoted V] in
theorem nodes_link_congr (same : other.nodes = forest.nodes) (parent : NodeId) (slot : Nat)
    (child : NodeId) :
    (other.link parent slot child).nodes = (forest.link parent slot child).nodes := by
  have widened : (other.ensureSlots parent (slot + 1)).nodes =
      (forest.ensureSlots parent (slot + 1)).nodes := by
    simp only [ensureSlots, setSlots, same]
    split <;> simp [same]
  simp only [link, setSlots, same, widened]
  split
  · exact same
  · rfl

omit [Quoted V] in
theorem intern_congr (same : other.nodes = forest.nodes) (value : V) :
    (other.intern value).1.nodes = (forest.intern value).1.nodes ∧
      (other.intern value).2 = (forest.intern value).2 := by
  simp only [intern, find?, same]
  split
  · exact ⟨same, rfl⟩
  · exact ⟨rfl, rfl⟩

/-- A refused edge leaves a forest as it was. -/
theorem perform_insertEdge (forest : Forest V) (parent : V) (slot : Nat) (child : V) :
    forest.perform (.insertEdge parent slot child) =
      if parent = child then forest
      else
        ((forest.intern parent).1.intern child).1.link (forest.intern parent).2 slot
          ((forest.intern parent).1.intern child).2 := by
  simp only [perform, insertEdge, insertEdge?]
  by_cases loop : parent = child
  · rw [if_pos loop, if_pos loop]
  · rw [if_neg loop, if_neg loop]

theorem nodes_perform_congr (same : other.nodes = forest.nodes) {command : Command V}
    (inserts : command.asks = false) :
    (other.perform command).nodes = (forest.perform command).nodes := by
  cases command with
  | insertNode value arity =>
      rcases intern_congr same value with ⟨interned, id_eq⟩
      simp only [perform, insertNode, ensureSlots, setSlots, interned, id_eq]
      split <;> simp [interned]
  | insertEdge parent slot child =>
      rcases intern_congr same parent with ⟨parent_interned, parent_eq⟩
      rcases intern_congr parent_interned child with ⟨child_interned, child_eq⟩
      rw [perform_insertEdge, perform_insertEdge, parent_eq, child_eq]
      split
      · exact same
      · exact nodes_link_congr child_interned ..
  | insertRoot value =>
      rcases intern_congr same value with ⟨interned, id_eq⟩
      simp only [perform, insertRoot, id_eq]
      exact nodes_link_congr interned ..
  | count => cases inserts
  | unrank rank => cases inserts

theorem nodes_foldl_congr (same : other.nodes = forest.nodes) {commands : List (Command V)}
    (inserts : ∀ command ∈ commands, command.asks = false) :
    (commands.foldl perform other).nodes = (commands.foldl perform forest).nodes := by
  induction commands generalizing forest other with
  | nil => exact same
  | cons command commands ih =>
      refine ih (nodes_perform_congr same (inserts command List.mem_cons_self)) ?_
      intro later later_mem
      exact inserts later (List.mem_cons_of_mem command later_mem)

/-- An insertion that changes anything makes the tallies stale. -/
theorem perform_eq_or_stale {command : Command V} (inserts : command.asks = false) :
    forest.perform command = forest ∨ (forest.perform command).stale = true := by
  have intern_eq_or_stale (forest : Forest V) (value : V) :
      (forest.intern value).1 = forest ∨ (forest.intern value).1.stale = true := by
    rw [intern]
    split
    · exact .inl rfl
    · exact .inr rfl
  have then_stale {first second third : Forest V} (early : second = first ∨ second.stale = true)
      (late : third = second ∨ third.stale = true) : third = first ∨ third.stale = true := by
    rcases late with rfl | stale
    · exact early
    · exact .inr stale
  cases command with
  | insertNode value arity =>
      refine then_stale (intern_eq_or_stale forest value) ?_
      simp only [perform, insertNode, ensureSlots]
      split
      · exact .inr rfl
      · exact .inl rfl
  | insertEdge parent slot child =>
      rw [perform_insertEdge]
      split
      · exact .inl rfl
      · exact then_stale (then_stale (intern_eq_or_stale forest parent)
          (intern_eq_or_stale _ child)) link_eq_or_stale
  | insertRoot value => exact then_stale (intern_eq_or_stale forest value) link_eq_or_stale
  | count => cases inserts
  | unrank rank => cases inserts

theorem perform_of_asks {command : Command V} (asks : command.asks = true) :
    forest.perform command = forest.count.1 := by
  cases command with
  | count => exact treeCount_fst forest
  | unrank rank => exact unrank_fst forest rank
  | _ => cases asks

/-- Tallies that are not stale come from a count that succeeded, and there is no cycle. -/
theorem Reached.acyclic_of_fresh (reached : forest.Reached) (fresh : forest.stale = false) :
    ¬ Cyclic forest.nodes := by
  have run (commands : List (Command V)) (forest : Forest V) (wellFormed : forest.WellFormed)
      (acyclic : forest.stale = false → ¬ Cyclic forest.nodes)
      (fresh : (commands.foldl Forest.perform forest).stale = false) :
      ¬ Cyclic (commands.foldl Forest.perform forest).nodes := by
    induction commands generalizing forest with
    | nil => exact acyclic fresh
    | cons command commands ih =>
        refine ih _ (wellFormed.perform command) (fun fresh_now => ?_) fresh
        cases asks : command.asks with
        | true =>
            rw [perform_of_asks asks] at fresh_now ⊢
            rcases count_outcome wellFormed with ⟨counted, nodes_eq, -, outcome⟩
            rcases outcome with ⟨-, -, stale, -⟩ | ⟨number, -, -, counts⟩
            · simp [stale] at fresh_now
            · rw [nodes_eq]
              exact not_cyclic_of_grounded (nodes_eq ▸ counted.shaped) counts.grounded
        | false =>
            rcases @perform_eq_or_stale _ _ _ forest _ asks with unchanged | stale
            · rw [unchanged] at fresh_now ⊢
              exact acyclic fresh_now
            · simp [stale] at fresh_now
  rcases reached with ⟨commands, rfl⟩
  refine run commands empty .empty ?_ fresh
  rintro - ⟨id, loop⟩
  rcases Relation.TransGen.head'_iff.mp loop with ⟨child, lists, -⟩
  rcases lists_iff.mp lists with ⟨slot, slot_mem, -⟩
  rcases id with _ | id <;> simp [empty, slotsOf] at slot_mem

omit [DecidableEq V] [Quoted V] in
theorem nodes_adoptOrphans_congr (same : other.nodes = forest.nodes) :
    other.adoptOrphans.nodes = forest.adoptOrphans.nodes := by
  have orphans_eq : other.orphans = forest.orphans := by
    simp only [orphans, valueNodes, size, same]
  rw [adoptOrphans, adoptOrphans, orphans_eq]
  generalize forest.orphans = ids
  induction ids generalizing forest other with
  | nil => exact same
  | cons id ids ih =>
      have linked := nodes_link_congr same 0 0 id
      refine ih linked ?_
      simp only [orphans, valueNodes, size, linked]

omit [DecidableEq V] in
/-- A count that starts from nothing goes by the nodes only. -/
theorem treeCount_congr_of_stale (shaped : Shaped forest.nodes)
    (same : other.nodes = forest.nodes) (stale : forest.stale = true)
    (other_stale : other.stale = true) : other.treeCount.2 = forest.treeCount.2 := by
  have adopted_stale {forest : Forest V} (shaped : Shaped forest.nodes)
      (stale : forest.stale = true) : forest.adoptOrphans.stale = true := by
    rcases (adopts_adoptOrphans shaped).changed with unchanged | changed
    · rw [unchanged, stale]
    · exact changed
  have nodes_eq := nodes_adoptOrphans_congr same
  have tallies_eq : other.adoptOrphans.freshTallies = forest.adoptOrphans.freshTallies := by
    rw [freshTallies, freshTallies, if_pos (adopted_stale shaped stale),
      if_pos (adopted_stale (same ▸ shaped) other_stale), nodes_eq]
  have count_eq : other.count.2 = forest.count.2 ∧ other.count.1.nodes = forest.count.1.nodes := by
    constructor <;> simp only [count, valueNodes, size, nodes_eq, tallies_eq]
  rw [treeCount_snd, treeCount_snd, count_eq.1]
  simp only [valueText, count_eq.2]

/-- Reached forests with the same nodes give the same answers. -/
theorem Reached.answers_congr (reached : forest.Reached) (other_reached : other.Reached)
    (same : other.nodes = forest.nodes) :
    other.treeCount.2 = forest.treeCount.2 ∧
      ∀ rank, (other.unrank rank).2 = (forest.unrank rank).2 := by
  by_cases cyclic : Cyclic forest.nodes
  · have stale {forest : Forest V} (reached : forest.Reached) (cyclic : Cyclic forest.nodes) :
        forest.stale = true := by
      by_contra fresh
      exact reached.acyclic_of_fresh (by simpa using fresh) cyclic
    have counts_eq := treeCount_congr_of_stale reached.wellFormed.shaped same
      (stale reached cyclic) (stale other_reached (same ▸ cyclic))
    refine ⟨counts_eq, ?_⟩
    intro rank
    rcases counted : forest.treeCount with ⟨after, failure | count⟩
    · rcases other_counted : other.treeCount with ⟨other_after, other_failure | other_count⟩
      · rw [counted, other_counted] at counts_eq
        simp only [unrank, counted, other_counted]
        exact congrArg _ (Except.error.inj counts_eq)
      · simp [counted, other_counted] at counts_eq
    · exact (reached.of_treeCount (congrArg Prod.snd counted)).1.elim cyclic
  · have other_acyclic : ¬ Cyclic other.nodes := same ▸ cyclic
    refine ⟨?_, ?_⟩
    · rw [reached.treeCount_of_acyclic cyclic, other_reached.treeCount_of_acyclic other_acyclic,
        trees_congr same]
    · intro rank
      rcases Nat.lt_or_ge rank (clip forest.trees.ncard) with below | beyond
      · rcases reached.unrank_eq_exactTree cyclic below with ⟨tree, unranked, exact, -⟩
        rcases other_reached.unrank_eq_exactTree other_acyclic (trees_congr same ▸ below) with
          ⟨other_tree, other_unranked, other_exact, -⟩
        rw [exactTree, starts_congr same, same, ← exactTree, exact] at other_exact
        rw [unranked, other_unranked, Option.some.inj other_exact]
      · rw [(unrank_outcome reached cyclic rank).2 beyond,
          (unrank_outcome other_reached other_acyclic rank).2 (trees_congr same ▸ beyond),
          trees_congr same]

end Answers

/-! ## A question declares roots -/

section Declared

variable {forest other : Forest V}

omit [Quoted V] in
/-- Declaring the values of nodes as roots links these nodes. -/
theorem foldl_insertRoot (shaped : Shaped forest.nodes) {ids : List NodeId}
    (valued : ∀ id ∈ ids, ∃ value, valueOf forest.nodes id = some value) :
    (ids.filterMap (valueOf forest.nodes)).foldl insertRoot forest =
      ids.foldl (fun forest id => forest.link 0 0 id) forest := by
  induction ids generalizing forest with
  | nil => rfl
  | cons id ids ih =>
      rcases valued id List.mem_cons_self with ⟨value, id_valued⟩
      have root_eq : forest.insertRoot value = forest.link 0 0 id := by
        rw [insertRoot, intern, shaped.find?_eq_some_iff.mpr id_valued]
      have linked_shaped : Shaped (forest.link 0 0 id).nodes :=
        shaped.link shaped.nonempty (shaped.pos_of_valueOf id_valued) (lt_size_of_valueOf id_valued)
          fun _ => rfl
      rw [List.filterMap_cons_some id_valued, List.foldl_cons, List.foldl_cons, root_eq]
      have rest := ih linked_shaped fun other other_mem => by
        simpa using valued other (List.mem_cons_of_mem id other_mem)
      simpa using rest

theorem foldl_declared (shaped : Shaped forest.nodes) {command : Command V}
    (asks : command.asks = true) :
    (forest.declared command).foldl perform forest = forest.adoptOrphans := by
  rw [declared, if_pos asks, List.foldl_map]
  exact foldl_insertRoot shaped fun id id_mem => ((mem_orphans shaped).mp id_mem).1

omit [DecidableEq V] [Quoted V] in
theorem asks_of_mem_declared {command later : Command V}
    (later_mem : later ∈ forest.declared command) : later.asks = false := by
  rw [declared] at later_mem
  split at later_mem
  · rcases List.mem_map.mp later_mem with ⟨value, -, rfl⟩
    rfl
  · rename_i inserts
    rw [List.mem_singleton.mp later_mem]
    simpa using inserts

theorem asks_of_mem_unasked {commands : List (Command V)} {command : Command V}
    (command_mem : command ∈ forest.unasked commands) : command.asks = false := by
  induction commands generalizing forest with
  | nil => cases command_mem
  | cons first rest ih =>
      rcases List.mem_append.mp command_mem with here | later
      · exact asks_of_mem_declared here
      · exact ih later

/-- One command leaves the nodes that what it stands for leaves. -/
theorem nodes_perform (wellFormed : forest.WellFormed) (command : Command V) :
    (forest.perform command).nodes = ((forest.declared command).foldl perform forest).nodes := by
  cases asks : command.asks with
  | true =>
      rw [foldl_declared wellFormed.shaped asks, perform_of_asks asks]
      exact (count_outcome wellFormed).2.1
  | false =>
      rw [declared, asks]
      rfl

theorem nodes_unasked (wellFormed : forest.WellFormed) (same : other.nodes = forest.nodes)
    (commands : List (Command V)) :
    ((forest.unasked commands).foldl perform other).nodes =
      (commands.foldl perform forest).nodes := by
  induction commands generalizing forest other with
  | nil => exact same
  | cons command commands ih =>
      rw [unasked, List.foldl_append]
      refine ih (wellFormed.perform command) ?_
      rw [nodes_perform wellFormed command]
      exact nodes_foldl_congr same fun later => asks_of_mem_declared

end Declared

/-! ## What questions leave alone -/

omit [DecidableEq V] [Quoted V] in
/-- One forest lists more nodes at its universal root than another one at most. -/
structure Widens (plain asked : Forest V) : Prop where
  size : asked.nodes.size = plain.nodes.size
  below : SameBelow plain.nodes asked.nodes
  roots : slotAt plain.nodes 0 0 ⊆ slotAt asked.nodes 0 0

namespace Widens

variable {plain asked : Forest V}

omit [DecidableEq V] [Quoted V] in
theorem refl (forest : Forest V) : Widens forest forest :=
  ⟨rfl, .refl _, fun _ id_mem => id_mem⟩

omit [DecidableEq V] [Quoted V] in
theorem adoptOrphans (widens : Widens plain asked) (shaped : Shaped asked.nodes) :
    Widens plain asked.adoptOrphans := by
  have adopts := adopts_adoptOrphans shaped
  refine ⟨adopts.size.trans widens.size, ⟨?_, ?_⟩, ?_⟩
  · intro id
    rw [adopts.below.values, widens.below.values]
  · intro id inner
    rw [adopts.below.slots id inner, widens.below.slots id inner]
  · rw [adopts.root]
    exact List.subset_append_of_subset_left _ widens.roots

omit [DecidableEq V] [Quoted V] in
theorem ensureSlots (widens : Widens plain asked) {id : NodeId} (inner : id ≠ 0)
    (id_lt : id < plain.nodes.size) (arity : Nat) :
    Widens (plain.ensureSlots id arity) (asked.ensureSlots id arity) := by
  refine ⟨by simpa using widens.size, ⟨?_, ?_⟩, by simpa using widens.roots⟩
  · simpa using widens.below.values
  · intro other other_inner
    by_cases same : other = id
    · subst same
      rw [slotsOf_ensureSlots_self id_lt, slotsOf_ensureSlots_self (widens.size.symm ▸ id_lt),
        widens.below.slots other inner]
    · rw [slotsOf_ensureSlots_of_ne same, slotsOf_ensureSlots_of_ne same,
        widens.below.slots other other_inner]

omit [DecidableEq V] [Quoted V] in
theorem link (widens : Widens plain asked) {parent : NodeId} (inner : parent ≠ 0)
    (parent_lt : parent < plain.nodes.size) (slot : Nat) (child : NodeId) :
    Widens (plain.link parent slot child) (asked.link parent slot child) := by
  have slot_eq : slotAt asked.nodes parent slot = slotAt plain.nodes parent slot := by
    rw [slotAt, slotAt, widens.below.slots parent inner]
  have root_eq (forest : Forest V) :
      slotAt (forest.link parent slot child).nodes 0 0 = slotAt forest.nodes 0 0 := by
    rw [slotAt, slotAt, slotsOf_link_of_ne (Ne.symm inner)]
  refine ⟨by simpa using widens.size, ⟨by simpa using widens.below.values, ?_⟩, ?_⟩
  · intro other other_inner
    by_cases same : other = parent
    · subst same
      by_cases child_mem : child ∈ slotAt plain.nodes other slot
      · rw [link_of_mem child_mem, link_of_mem (slot_eq ▸ child_mem),
          widens.below.slots other inner]
      · rw [slotsOf_link_of_notMem child_mem parent_lt,
          slotsOf_link_of_notMem (slot_eq ▸ child_mem) (widens.size.symm ▸ parent_lt),
          (widens.ensureSlots inner parent_lt (slot + 1)).below.slots other inner]
    · rw [slotsOf_link_of_ne same, slotsOf_link_of_ne same, widens.below.slots other other_inner]
  · rw [root_eq, root_eq]
    exact widens.roots

omit [DecidableEq V] [Quoted V] in
theorem linkRoot (widens : Widens plain asked) (nonempty : 0 < plain.nodes.size)
    (child : NodeId) : Widens (plain.link 0 0 child) (asked.link 0 0 child) := by
  have mem_root (forest : Forest V) (nonempty : 0 < forest.nodes.size) (id : NodeId) :
      id ∈ slotAt (forest.link 0 0 child).nodes 0 0 ↔
        id ∈ slotAt forest.nodes 0 0 ∨ id = child := by
    by_cases child_mem : child ∈ slotAt forest.nodes 0 0
    · rw [link_of_mem child_mem]
      refine ⟨.inl, ?_⟩
      rintro (listed | rfl)
      · exact listed
      · exact child_mem
    · rw [slotAt_link_of_notMem child_mem nonempty, if_pos ⟨rfl, rfl⟩, List.mem_append,
        List.mem_singleton]
  refine ⟨by simpa using widens.size, ⟨by simpa using widens.below.values, ?_⟩, ?_⟩
  · intro other inner
    rw [slotsOf_link_of_ne inner, slotsOf_link_of_ne inner, widens.below.slots other inner]
  · intro id id_mem
    rw [mem_root plain nonempty] at id_mem
    rw [mem_root asked (widens.size.symm ▸ nonempty)]
    exact id_mem.imp_left fun listed => widens.roots listed

omit [Quoted V] in
theorem intern (widens : Widens plain asked) (plain_shaped : Shaped plain.nodes)
    (asked_shaped : Shaped asked.nodes) (value : V) :
    Widens (plain.intern value).1 (asked.intern value).1 ∧
      (asked.intern value).2 = (plain.intern value).2 := by
  have find_eq : asked.find? value = plain.find? value := by
    refine Option.ext fun id => ?_
    rw [asked_shaped.find?_eq_some_iff, plain_shaped.find?_eq_some_iff, widens.below.values]
  rw [Forest.intern, Forest.intern, find_eq]
  split
  · exact ⟨widens, rfl⟩
  · refine ⟨⟨by simp [widens.size], ⟨?_, ?_⟩, ?_⟩, widens.size⟩
    · intro id
      rw [valueOf_push, valueOf_push, widens.size, widens.below.values]
    · intro id inner
      rw [slotsOf_push, slotsOf_push, widens.below.slots id inner]
    · simpa only [slotAt, slotsOf_push] using widens.roots

/-- The same insertion keeps two forests the same below the universal root. -/
theorem perform (widens : Widens plain asked) (plain_formed : plain.WellFormed)
    (asked_formed : asked.WellFormed) {command : Command V} (inserts : command.asks = false) :
    Widens (plain.perform command) (asked.perform command) := by
  have interned (value : V) := widens.intern plain_formed.shaped asked_formed.shaped value
  cases command with
  | insertNode value arity =>
      have valued := plain_formed.shaped.valueOf_intern value
      have inner := Nat.ne_of_gt ((plain_formed.intern value).shaped.pos_of_valueOf valued)
      simp only [Forest.perform, insertNode, (interned value).2]
      exact (interned value).1.ensureSlots inner (lt_size_of_valueOf valued) arity
  | insertEdge parent slot child =>
      rw [perform_insertEdge, perform_insertEdge]
      split
      · exact widens
      · have both := (interned parent).1.intern (plain_formed.intern parent).shaped
          (asked_formed.intern parent).shaped child
        have valued : valueOf ((plain.intern parent).1.intern child).1.nodes
            (plain.intern parent).2 = some parent :=
          Shaped.valueOf_intern_of_valueOf (plain_formed.shaped.valueOf_intern parent)
        have inner := Nat.ne_of_gt
          (((plain_formed.intern parent).intern child).shaped.pos_of_valueOf valued)
        rw [both.2, (interned parent).2]
        exact both.1.link inner (lt_size_of_valueOf valued) slot _
  | insertRoot value =>
      simp only [Forest.perform, insertRoot, (interned value).2]
      exact (interned value).1.linkRoot (plain_formed.intern value).shaped.nonempty _
  | count => cases inserts
  | unrank rank => cases inserts

theorem foldl (widens : Widens plain asked) (plain_formed : plain.WellFormed)
    (asked_formed : asked.WellFormed) (commands : List (Command V)) :
    Widens ((commands.filter fun command => !command.asks).foldl Forest.perform plain)
      (commands.foldl Forest.perform asked) := by
  induction commands generalizing plain asked with
  | nil => exact widens
  | cons command commands ih =>
      cases asks : command.asks with
      | true =>
          rw [List.filter_cons_of_neg (by simp [asks])]
          refine ih ?_ plain_formed (asked_formed.perform command)
          have adopted := widens.adoptOrphans asked_formed.shaped
          rw [perform_of_asks asks]
          have nodes_eq := (count_outcome asked_formed).2.1
          exact ⟨nodes_eq ▸ adopted.size, nodes_eq ▸ adopted.below, nodes_eq ▸ adopted.roots⟩
      | false =>
          rw [List.filter_cons_of_pos (by simp [asks])]
          exact ih (widens.perform plain_formed asked_formed asks) (plain_formed.perform command)
            (asked_formed.perform command)

omit [DecidableEq V] [Quoted V] in
theorem starts_subset (widens : Widens plain asked) (plain_shaped : Shaped plain.nodes)
    (asked_shaped : Shaped asked.nodes) : plain.starts ⊆ asked.starts := by
  intro id id_mem
  rw [mem_starts asked_shaped]
  by_cases root : Lists asked.nodes 0 id
  · exact .inl root
  · rcases List.mem_append.mp id_mem with listed | orphan
    · exact (root ⟨0, widens.roots listed⟩).elim
    · rcases (mem_orphans plain_shaped).mp orphan with ⟨⟨value, valued⟩, unlisted⟩
      refine .inr ⟨⟨value, by rw [widens.below.values, valued]⟩, ?_⟩
      rintro parent ⟨slot, id_listed⟩
      have inner : parent ≠ 0 := by
        rintro rfl
        exact root ⟨slot, id_listed⟩
      rw [slotAt, widens.below.slots parent inner] at id_listed
      exact unlisted parent ⟨slot, id_listed⟩

omit [DecidableEq V] [Quoted V] in
theorem trees_subset (widens : Widens plain asked) (plain_shaped : Shaped plain.nodes)
    (asked_shaped : Shaped asked.nodes) : plain.trees ⊆ asked.trees := by
  rintro tree ⟨id, id_mem, holds⟩
  exact ⟨id, widens.starts_subset plain_shaped asked_shaped id_mem,
    widens.below.holdsTree plain_shaped.root_value tree holds⟩

end Widens

/--
After any history a forest answers like the one in whose history every question is replaced by
declarations of the values that nothing listed then as roots. Compared with the history without its
questions, the same values hold the same trees, a count succeeds if and only if it does there, and
no tree is lost.
-/
theorem asking_declares_roots (commands : List (Command V)) :
    let asked := commands.foldl perform empty
    let declared := (empty.unasked commands).foldl perform empty
    let plain := (commands.filter fun command => !command.asks).foldl perform empty
    (∀ command ∈ empty.unasked commands, command.asks = false) ∧
      asked.treeCount.2 = declared.treeCount.2 ∧
        (∀ rank, (asked.unrank rank).2 = (declared.unrank rank).2) ∧
          (∀ id, valueOf asked.nodes id = valueOf plain.nodes id ∧
            held asked.nodes id = held plain.nodes id) ∧
            ((∃ count, asked.treeCount.2 = .ok count) ↔ ∃ count, plain.treeCount.2 = .ok count) ∧
              plain.trees ⊆ asked.trees := by
  intro asked declared plain
  have asked_reached : asked.Reached := ⟨commands, rfl⟩
  have declared_reached : declared.Reached := ⟨empty.unasked commands, rfl⟩
  have plain_reached : plain.Reached := ⟨_, rfl⟩
  have answers := declared_reached.answers_congr asked_reached
    (nodes_unasked WellFormed.empty rfl commands).symm
  have widens : Widens plain asked := (Widens.refl empty).foldl .empty .empty commands
  have plain_shaped := plain_reached.wellFormed.shaped
  have asked_shaped := asked_reached.wellFormed.shaped
  refine ⟨fun command => asks_of_mem_unasked, answers.1, answers.2, ?_, ?_, ?_⟩
  · intro id
    exact ⟨widens.below.values id, widens.below.held_eq plain_shaped id⟩
  · rw [asked_reached.treeCount_ok_iff, plain_reached.treeCount_ok_iff]
    exact not_congr ⟨widens.below.symm.cyclic asked_shaped, widens.below.cyclic plain_shaped⟩
  · exact widens.trees_subset plain_shaped asked_shaped

/-- A value that nothing lists when the trees are counted stays a root when it is listed later. -/
theorem asking_adds_tree :
    let history : List (Command Nat) := [.insertNode 1 0, .count, .insertEdge 0 0 1]
    ((history.filter fun command => !command.asks).foldl perform empty).treeCount.2 = .ok 1 ∧
      (history.foldl perform empty).treeCount.2 = .ok 2 := by
  decide +kernel

end Forest

end Cascades
