import Cascades.Proofs.PlanSpace.Plans
import Cascades.Proofs.Search.Operations

/-!
# A plan space holds exactly the plans of a memo

Building and counting a plan space succeeds exactly if no group below its root reaches itself. Then
each rank below the count stands for a plan of the root, whatever has been asked of the plan space
before, and if the number of plans fits, every plan has exactly one rank.
-/

namespace Cascades

open Forest Saturating

namespace Plan

mutual

/-- The operators of a plan, each as its expression in its group. -/
def parts : Plan → List (GroupId × ExprId)
  | .node group id _ children => (group, id) :: partsOf children

/-- The parts of the plans of a list. -/
def partsOf : List Plan → List (GroupId × ExprId)
  | [] => []
  | plan :: rest => plan.parts ++ partsOf rest

end

end Plan

namespace PlanSpace

/-- A rank stands for a plan. -/
def Gives (space : PlanSpace) (memo : Memo) (rank : Nat) (plan : Plan) : Prop :=
  ∃ tree, (space.unrank rank).2 = .ok tree ∧ memo.planOf tree = .ok plan

variable {memo : Memo} {kind : PlanKind} {root : GroupId} {space : PlanSpace}

namespace Represents

section Cycles

variable (represents : space.Represents memo kind root)
include represents

theorem lists_iff {parent node : NodeId} {id member : ExprId}
    (parent_valued : valueOf space.nodes parent = some id)
    (valued : valueOf space.nodes node = some member) : Forest.Lists space.nodes parent node ↔
      ∃ child ∈ memo.inputs id, member ∈ kind.members memo child := by
  simp only [Forest.Lists, represents.mem_slotAt parent_valued valued]
  constructor
  · rintro ⟨slot, child, at_slot, member_mem⟩
    exact ⟨child, List.mem_of_getElem? at_slot, member_mem⟩
  · rintro ⟨child, child_mem, member_mem⟩
    rcases List.mem_iff_getElem?.mp child_mem with ⟨slot, at_slot⟩
    exact ⟨slot, child, at_slot, member_mem⟩

/-- A path of nodes leads through groups that reach each other. -/
theorem groups_of_path {first last : NodeId} (path : Relation.TransGen (Forest.Lists space.nodes) first last)
    {id : ExprId} (valued : valueOf space.nodes first = some id) {group : GroupId}
    (group_mem : group ∈ below memo kind root) (id_mem : id ∈ kind.members memo group) :
    ∃ member end_ , valueOf space.nodes last = some member ∧ member ∈ kind.members memo end_ ∧
      end_ ∈ below memo kind root ∧
        Relation.TransGen (memo.LeadsTo kind) group end_ := by
  have step {parent node : NodeId} {above : ExprId} {upper : GroupId}
      (parent_valued : valueOf space.nodes parent = some above) (above_mem : above ∈ kind.members memo upper)
      (upper_mem : upper ∈ below memo kind root) (lists : Forest.Lists space.nodes parent node) :
      ∃ member next, valueOf space.nodes node = some member ∧ member ∈ kind.members memo next ∧
        next ∈ below memo kind root ∧ memo.LeadsTo kind upper next := by
    rcases represents.shaped.listed_value lists with ⟨member, node_valued⟩
    rcases (represents.lists_iff parent_valued node_valued).mp lists with
      ⟨child, child_mem, member_mem⟩
    exact ⟨member, child, node_valued, member_mem, below_child upper_mem above_mem child child_mem,
      above, above_mem, child_mem⟩
  induction path with
  | single lists =>
      rcases step valued id_mem group_mem lists with ⟨member, next, facts⟩
      exact ⟨member, next, facts.1, facts.2.1, facts.2.2.1, .single facts.2.2.2⟩
  | tail _ lists ih =>
      rcases ih with ⟨above, upper, above_valued, above_mem, upper_mem, before⟩
      rcases step above_valued above_mem upper_mem lists with ⟨member, next, facts⟩
      exact ⟨member, next, facts.1, facts.2.1, facts.2.2.1, before.tail facts.2.2.2⟩

/-- To a node of a group leads a path of nodes from every group that reaches it. -/
theorem path_of_groups {group upper : GroupId}
    (reaches : Relation.ReflTransGen (memo.LeadsTo kind) upper group)
    (upper_mem : upper ∈ below memo kind root) {id : ExprId} (id_mem : id ∈ kind.members memo group)
    {node : NodeId} (valued : valueOf space.nodes node = some id) :
    ∃ above ∈ kind.members memo upper, ∃ first, valueOf space.nodes first = some above ∧
      Relation.ReflTransGen (Forest.Lists space.nodes) first node := by
  induction reaches using Relation.ReflTransGen.head_induction_on with
  | refl => exact ⟨id, id_mem, node, valued, .refl⟩
  | head into _ ih =>
      rcases into with ⟨above, above_mem, child_mem⟩
      rcases ih (below_child upper_mem above_mem _ child_mem) with
        ⟨member, member_mem, next, next_valued, path⟩
      rcases represents.node_of_mem upper_mem above_mem with ⟨first, first_valued⟩
      have lists := (represents.lists_iff first_valued next_valued).mpr ⟨_, child_mem, member_mem⟩
      exact ⟨above, above_mem, first, first_valued, path.head lists⟩

/-- A plan space has a cycle exactly if a group below its root reaches itself. -/
theorem cyclic_iff : Cyclic space.nodes ↔ ¬ memo.AcyclicBelow kind root := by
  constructor
  · rintro ⟨node, loop⟩ acyclic
    rcases Relation.TransGen.head'_iff.mp loop with ⟨child, lists, -⟩
    have inner : ∃ id, valueOf space.nodes node = some id := by
      rcases Relation.TransGen.tail'_iff.mp loop with ⟨parent, -, into⟩
      exact represents.shaped.listed_value into
    rcases inner with ⟨id, valued⟩
    rcases represents.valued_iff.mp ⟨node, valued⟩ with ⟨group, group_mem, id_mem⟩
    rcases represents.groups_of_path loop valued group_mem id_mem with
      ⟨member, other, other_valued, member_mem, -, path⟩
    obtain rfl := Option.some.inj (other_valued.symm.trans valued)
    rcases represents.consistent.stored_of_mem id_mem with ⟨expression, stored, rfl⟩
    rcases represents.consistent.stored_of_mem member_mem with ⟨same, same_stored, rfl⟩
    rw [stored] at same_stored
    cases same_stored
    exact acyclic _ (mem_below.mp group_mem) path
  · intro cyclic
    simp only [Memo.AcyclicBelow, not_forall, not_not] at cyclic
    rcases cyclic with ⟨group, group_reached, loop⟩
    have group_mem := mem_below.mpr group_reached
    rcases Relation.TransGen.head'_iff.mp loop with ⟨next, into, back⟩
    rcases into with ⟨id, id_mem, child_mem⟩
    rcases represents.node_of_mem group_mem id_mem with ⟨node, valued⟩
    rcases represents.path_of_groups back (below_child group_mem id_mem next child_mem) id_mem valued
      with ⟨above, above_mem, first, first_valued, path⟩
    have lists := (represents.lists_iff valued first_valued).mpr ⟨next, child_mem, above_mem⟩
    exact ⟨node, .head' lists path⟩

end Cycles

section Ranks

variable (represents : space.Represents memo kind root) {count : Nat}
  (counted : space.treeCount.2 = .ok count)
include represents counted

theorem finite_plans : (memo.plans kind root).Finite := by
  have reached := represents.holds.reached
  have finite := reached.finite_trees (reached.of_treeCount counted).1
  rw [represents.trees_eq] at finite
  exact finite.of_finite_image (Memo.tree_injective represents.consistent root)

theorem count_eq : count = clip (memo.plans kind root).ncard := by
  rw [(represents.holds.reached.of_treeCount counted).2, represents.ncard_trees]

/-- Every rank below the count, saturated or not, gives a plan with that rank. -/
theorem gives_of_lt {later : PlanSpace} (asked : space.Asked later) {rank : Nat}
    (below : rank < count) :
    ∃ plan ∈ memo.plans kind root, later.Gives memo rank plan ∧ space.rank plan.tree = rank := by
  rcases represents.holds.reached.unrank_of_lt counted asked below with
    ⟨tree, tree_mem, unranked, rank_eq⟩
  rw [represents.trees_eq] at tree_mem
  rcases tree_mem with ⟨plan, isPlan, rfl⟩
  exact ⟨plan, isPlan, ⟨_, unranked, Memo.planOf_tree represents.consistent plan isPlan⟩, rank_eq⟩

/-- A rank gives nothing but plans. -/
theorem isPlan_of_gives {rank : Nat} {plan : Plan} (gives : space.Gives memo rank plan) :
    plan ∈ memo.plans kind root := by
  rcases gives with ⟨tree, unranked, plan_eq⟩
  have below := represents.holds.reached.lt_of_unrank counted .none unranked
  rcases represents.gives_of_lt counted .none below with
    ⟨other, isPlan, ⟨same, same_unranked, other_eq⟩, -⟩
  rw [unranked] at same_unranked
  cases same_unranked
  rw [plan_eq] at other_eq
  cases other_eq
  exact isPlan

/-- If the number of plans fits, a rank gives exactly the plan with that rank. -/
theorem gives_iff (fits : (memo.plans kind root).ncard ≤ limit) {later : PlanSpace}
    (asked : space.Asked later) {plan : Plan} (isPlan : plan ∈ memo.plans kind root) {rank : Nat} :
    later.Gives memo rank plan ↔ space.rank plan.tree = rank := by
  have reached := represents.holds.reached
  rw [← represents.ncard_trees] at fits
  constructor
  · rintro ⟨tree, unranked, plan_eq⟩
    have here := (reached.unrank_iff counted fits asked).mp unranked
    have tree_mem := here.1
    rw [represents.trees_eq] at tree_mem
    rcases tree_mem with ⟨other, other_plan, rfl⟩
    rw [Memo.planOf_tree represents.consistent other other_plan] at plan_eq
    exact Except.ok.inj plan_eq ▸ here.2
  · intro rank_eq
    refine ⟨plan.tree, (reached.unrank_iff counted fits asked).mpr ⟨?_, rank_eq⟩,
      Memo.planOf_tree represents.consistent plan isPlan⟩
    rw [represents.trees_eq]
    exact ⟨plan, isPlan, rfl⟩

end Ranks

end Represents

/-- A plan space is built if the groups below its root exist and none of them reaches itself. -/
theorem build_of_exist (consistent : memo.Consistent)
    (exist : ∀ id, Relation.ReflTransGen (memo.LeadsTo kind) root id → id < memo.groups.size)
    (acyclic : memo.AcyclicBelow kind root) : ∃ space, build memo root kind = .ok (.ok space) := by
  refine build_total consistent (fun id id_mem => exist id (mem_below.mp id_mem)) ?_
  intro id id_mem member member_mem child child_mem
  have into : memo.LeadsTo kind id child := ⟨member, member_mem, child_mem⟩
  refine ⟨exist child ((mem_below.mp id_mem).tail into), ?_⟩
  intro inside
  rcases consistent.stored_of_mem member_mem with ⟨expression, stored, rfl⟩
  rcases consistent.stored_of_mem inside with ⟨same, same_stored, rfl⟩
  rw [stored] at same_stored
  cases same_stored
  exact acyclic _ (mem_below.mp id_mem) (.single into)

/-- In a closed memo, a plan space is built if no group below its root reaches itself. -/
theorem build_of_acyclic (consistent : memo.Consistent) (closed : memo.Closed)
    (exists_ : root < memo.groups.size) (acyclic : memo.AcyclicBelow kind root) :
    ∃ space, build memo root kind = .ok (.ok space) := by
  refine build_of_exist consistent ?_ acyclic
  intro id path
  rcases path.cases_tail with rfl | ⟨parent, -, member, member_mem, child_mem⟩
  · exact exists_
  · rcases consistent.stored_of_mem member_mem with ⟨expression, stored, -⟩
    exact closed stored id (Memo.inputs_eq stored ▸ child_mem)

/-- A plan space that has been built can be counted if no group below its root reaches itself. -/
theorem counted_of_acyclic (consistent : memo.Consistent)
    (built : build memo root kind = .ok (.ok space)) (acyclic : memo.AcyclicBelow kind root) :
    ∃ count, space.treeCount.2 = .ok count := by
  have represents := represents_of_build consistent built
  exact represents.holds.reached.treeCount_ok_iff.mpr
    fun cyclic => represents.cyclic_iff.mp cyclic acyclic

mutual

/-- Only groups below the root take part in plans, and no expression over a group without plans. -/
theorem parts_of_isPlan : (plan : Plan) → {group : GroupId} →
    Relation.ReflTransGen (memo.LeadsTo kind) root group → memo.IsPlan kind group plan →
      ∀ part ∈ plan.parts, Relation.ReflTransGen (memo.LeadsTo kind) root part.1 ∧
        ∀ child ∈ memo.inputs part.2, kind.members memo child ≠ []
  | .node home id operator children, group, reached, ⟨home_eq, id_mem, _, stored, _, plans⟩ => by
      rw [← Memo.inputs_eq stored] at plans
      have child_reached : ∀ child ∈ memo.inputs id,
          Relation.ReflTransGen (memo.LeadsTo kind) root child :=
        fun child child_mem => reached.tail ⟨id, id_mem, child_mem⟩
      have below := parts_of_arePlans children child_reached plans
      intro part part_mem
      rcases List.mem_cons.mp part_mem with rfl | part_mem
      · exact ⟨home_eq ▸ reached, below.2⟩
      · exact below.1 part part_mem

theorem parts_of_arePlans : (plans : List Plan) → {groups : List GroupId} →
    (∀ group ∈ groups, Relation.ReflTransGen (memo.LeadsTo kind) root group) →
      memo.ArePlans kind groups plans →
        (∀ part ∈ Plan.partsOf plans, Relation.ReflTransGen (memo.LeadsTo kind) root part.1 ∧
          ∀ child ∈ memo.inputs part.2, kind.members memo child ≠ []) ∧
            ∀ group ∈ groups, kind.members memo group ≠ []
  | [], [], _, _ => ⟨by simp [Plan.partsOf], by simp⟩
  | plan :: rest, group :: groups, reached, ⟨isPlan, arePlans⟩ => by
      have first := parts_of_isPlan plan (reached group List.mem_cons_self) isPlan
      have others := parts_of_arePlans rest
        (fun other other_mem => reached other (List.mem_cons_of_mem group other_mem)) arePlans
      refine ⟨?_, ?_⟩
      · intro part part_mem
        rcases List.mem_append.mp part_mem with part_mem | part_mem
        · exact first part part_mem
        · exact others.1 part part_mem
      · intro other other_mem
        rcases List.mem_cons.mp other_mem with rfl | other_mem
        · cases plan with
          | node home id operator children => exact List.ne_nil_of_mem isPlan.2.1
        · exact others.2 other other_mem

end

/--
Building and counting a plan space succeeds exactly if no group below the root reaches itself. The
count is the number of plans up to saturation. If that fits, every rank below it gives a plan and
every plan is given by one rank alone, whatever has been asked before. No other group than those
below the root takes part in a plan, and no expression over a group without expressions of the kind.
-/
theorem plans_exact (arises : memo.Arises) (closed : memo.Closed)
    (exists_ : root < memo.groups.size) :
    ((∃ space count, build memo root kind = .ok (.ok space) ∧ space.treeCount.2 = .ok count) ↔
        memo.AcyclicBelow kind root) ∧
      ∀ space count, build memo root kind = .ok (.ok space) → space.treeCount.2 = .ok count →
        (memo.plans kind root).Finite ∧ count = min (memo.plans kind root).ncard limit ∧
          ((memo.plans kind root).ncard ≤ limit →
            (∀ later : PlanSpace, space.Asked later → ∀ rank < count,
              ∃ plan ∈ memo.plans kind root, later.Gives memo rank plan) ∧
            ∀ plan ∈ memo.plans kind root, ∃ rank < count, ∀ later : PlanSpace,
              space.Asked later → ∀ other, later.Gives memo other plan ↔ other = rank) ∧
          ∀ plan ∈ memo.plans kind root, ∀ part ∈ plan.parts,
            Relation.ReflTransGen (memo.LeadsTo kind) root part.1 ∧
              ∀ child ∈ memo.inputs part.2, kind.members memo child ≠ [] := by
  have consistent := arises.consistent
  refine ⟨⟨?_, ?_⟩, ?_⟩
  · rintro ⟨space, count, built, counted⟩
    have represents := represents_of_build consistent built
    by_contra cyclic
    exact (represents.holds.reached.of_treeCount counted).1 (represents.cyclic_iff.mpr cyclic)
  · intro acyclic
    rcases build_of_acyclic consistent closed exists_ acyclic with ⟨space, built⟩
    have represents := represents_of_build consistent built
    rcases represents.holds.reached.treeCount_ok_iff.mpr
      (fun cyclic => represents.cyclic_iff.mp cyclic acyclic) with ⟨count, counted⟩
    exact ⟨space, count, built, counted⟩
  · intro space count built counted
    have represents := represents_of_build consistent built
    refine ⟨represents.finite_plans counted, represents.count_eq counted, ?_, ?_⟩
    · intro fits
      refine ⟨?_, ?_⟩
      · intro later asked rank below
        rcases represents.gives_of_lt counted asked below with ⟨plan, isPlan, gives, -⟩
        exact ⟨plan, isPlan, gives⟩
      · intro plan isPlan
        have gives_iff {later : PlanSpace} (asked : space.Asked later) (rank : Nat) :
            later.Gives memo rank plan ↔ space.rank plan.tree = rank :=
          represents.gives_iff counted fits asked isPlan
        refine ⟨space.rank plan.tree, ?_, ?_⟩
        · rcases (gives_iff .none _).mpr rfl with ⟨tree, unranked, -⟩
          exact represents.holds.reached.lt_of_unrank counted .none unranked
        · intro later asked rank
          rw [gives_iff asked, eq_comm]
    · exact fun plan isPlan => parts_of_isPlan plan .refl isPlan

/-- What counting the plans below a group gives, if a plan space can be built. -/
def countPlans (memo : Memo) (root : GroupId) (kind : PlanKind) : Option (Except Failure Nat) :=
  (build memo root kind).toOption.bind fun built =>
    built.toOption.map fun space => space.treeCount.2

theorem of_countPlans {outcome : Except Failure Nat}
    (counted : countPlans memo root kind = some outcome) :
    ∃ space, build memo root kind = .ok (.ok space) ∧ space.treeCount.2 = outcome := by
  rw [countPlans] at counted
  cases built_eq : build memo root kind with
  | error dangling =>
      rw [built_eq] at counted
      cases counted
  | ok built =>
      rw [built_eq] at counted
      cases built with
      | error failure => cases counted
      | ok space => exact ⟨space, rfl, Option.some.inj counted⟩

/-- The plan of a rank, if it can be found. -/
def planAt (memo : Memo) (root : GroupId) (kind : PlanKind) (rank : Nat) : Option Plan :=
  (build memo root kind).toOption.bind fun built =>
    built.toOption.bind fun space => space.treeCount.2.toOption.bind fun _ =>
      (space.unrank rank).2.toOption.bind fun tree => (memo.planOf tree).toOption

theorem isPlan_of_planAt (consistent : memo.Consistent) {rank : Nat} {plan : Plan}
    (found : planAt memo root kind rank = some plan) : plan ∈ memo.plans kind root := by
  simp only [planAt, Option.bind_eq_some_iff] at found
  rcases found with ⟨built, build_eq, space, built_eq, count, counted, tree, unranked, plan_eq⟩
  rw [eq_ok_of_toOption built_eq] at build_eq
  exact (represents_of_build consistent (eq_ok_of_toOption build_eq)).isPlan_of_gives
    (eq_ok_of_toOption counted) ⟨tree, eq_ok_of_toOption unranked, eq_ok_of_toOption plan_eq⟩

/-- A join over the scans of two tables. -/
def pairJoined : Memo :=
  let scan (memo : Memo) (table : String) : Memo :=
    (memo.add (.logical (.scan ⟨"public", table⟩ [] none)) [] none).1
  ((scan (scan .empty "a") "b").add (.logical (.join .inner (.equality "a" "x" "b" "x"))) [0, 1]
    none).1

/-- The same join over the scans in both orders. -/
def pair : Memo :=
  match pairJoined.addTo 2 (.logical (.join .inner (.equality "a" "x" "b" "x"))) [1, 0] none with
  | .ok (memo, _) => memo
  | .error _ => pairJoined

theorem arises_pair : pair.Arises := by
  have joined : pairJoined.Arises := .add _ _ _ (.add _ _ _ (.add _ _ _ .empty))
  rw [pair]
  split
  · rename_i added
    exact .addTo joined added
  · exact joined

theorem count_pair :
    ∃ space, build pair 2 .logical = .ok (.ok space) ∧ space.treeCount.2 = .ok 2 :=
  of_countPlans (by decide +kernel)

/-- The join of two tables has two logical plans, and each is given by one of the ranks 0 and 1. -/
theorem plans_exact_pair : (pair.plans .logical 2).ncard = 2 ∧
    ∃ space, build pair 2 .logical = .ok (.ok space) ∧
      ∀ plan ∈ pair.plans .logical 2, ∃ rank < 2, ∀ other,
        PlanSpace.Gives space pair other plan ↔ other = rank := by
  have children : ∀ expression ∈ pair.expressions, ∀ child ∈ expression.children,
      child < pair.groups.size := by
    decide +kernel
  have closed : pair.Closed := fun found => children _ (Array.mem_of_getElem? found)
  rcases count_pair with ⟨space, built, counted⟩
  have exact_ := (plans_exact arises_pair closed (by decide +kernel)).2 space 2 built counted
  have two : (pair.plans .logical 2).ncard = 2 := by
    have number_eq := exact_.2.1
    have limit_large : 2 < limit := by decide
    omega
  refine ⟨two, space, built, ?_⟩
  intro plan isPlan
  rcases (exact_.2.2.1 (by rw [two]; decide)).2 plan isPlan with ⟨rank, rank_lt, gives⟩
  exact ⟨rank, rank_lt, gives space .none⟩

end PlanSpace

end Cascades
