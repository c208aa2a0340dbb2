import Cascades.Proofs.Forest.Listing
import Cascades.Proofs.PlanSpace.Loading

/-!
# The plans of a memo

A plan of a group has an expression that is stored in the group, and a plan of each of its child
groups. The trees of a plan space are exactly the plans of its root group, without the operators and
groups that the memo knows for them. A plan space has a cycle exactly if the groups below its root
have one: then every group on it holds an expression that leads on to the next.
-/

namespace Cascades

open Forest

namespace Memo

mutual

/-- A plan of a kind that starts with an expression of a group. -/
def IsPlan (memo : Memo) (kind : PlanKind) (group : GroupId) : Plan → Prop
  | .node home id operator children =>
      home = group ∧ id ∈ kind.members memo group ∧
        ∃ expression, memo.expression? id = some expression ∧ expression.operator = operator ∧
          ArePlans memo kind expression.children children

/-- Plans of a kind for a list of groups. -/
def ArePlans (memo : Memo) (kind : PlanKind) : List GroupId → List Plan → Prop
  | [], [] => True
  | group :: groups, plan :: plans =>
      IsPlan memo kind group plan ∧ ArePlans memo kind groups plans
  | _, _ => False

end

/-- The plans of a kind below a group. -/
def plans (memo : Memo) (kind : PlanKind) (group : GroupId) : Set Plan :=
  { plan | memo.IsPlan kind group plan }

/-- No group below a root reaches itself through expressions of a kind. -/
def AcyclicBelow (memo : Memo) (kind : PlanKind) (root : GroupId) : Prop :=
  ∀ id, Relation.ReflTransGen (memo.LeadsTo kind) root id →
    ¬ Relation.TransGen (memo.LeadsTo kind) id id

end Memo

namespace Plan

mutual

/-- The expressions of a plan. -/
def tree : Plan → Tree ExprId
  | .node _ id _ children => .node id (trees children)

/-- The trees of the plans of a list. -/
def trees : List Plan → List (Tree ExprId)
  | [] => []
  | plan :: rest => plan.tree :: trees rest

end

end Plan

namespace Memo

variable {memo : Memo} {kind : PlanKind}

theorem arePlans_nil_right {groups : List GroupId} : memo.ArePlans kind groups [] ↔ groups = [] := by
  cases groups with
  | nil => simp [ArePlans]
  | cons group groups => simp [ArePlans]

theorem arePlans_pair_right {groups : List GroupId} {left right : Plan} :
    memo.ArePlans kind groups [left, right] ↔ ∃ first second, groups = [first, second] ∧
      memo.IsPlan kind first left ∧ memo.IsPlan kind second right := by
  constructor
  · intro plans
    rcases groups with _ | ⟨first, _ | ⟨second, _ | ⟨third, rest⟩⟩⟩
    · exact plans.elim
    · exact plans.2.elim
    · exact ⟨first, second, rfl, plans.1, plans.2.1⟩
    · exact plans.2.2.elim
  · rintro ⟨first, second, rfl, left_plan, right_plan⟩
    exact ⟨left_plan, right_plan, trivial⟩

theorem arePlans_nil {plans : List Plan} : memo.ArePlans kind [] plans ↔ plans = [] := by
  cases plans with
  | nil => simp [ArePlans]
  | cons plan plans => simp [ArePlans]

theorem arePlans_pair {first second : GroupId} {plans : List Plan} :
    memo.ArePlans kind [first, second] plans ↔ ∃ left right, plans = [left, right] ∧
      memo.IsPlan kind first left ∧ memo.IsPlan kind second right := by
  constructor
  · intro arePlans
    rcases plans with _ | ⟨left, _ | ⟨right, _ | ⟨third, rest⟩⟩⟩
    · exact arePlans.elim
    · exact arePlans.2.elim
    · exact ⟨left, right, rfl, arePlans.1, arePlans.2.1⟩
    · exact arePlans.2.2.elim
  · rintro ⟨left, right, rfl, left_plan, right_plan⟩
    exact ⟨left_plan, right_plan, trivial⟩

mutual

/-- The memo knows the operators and groups of a plan. -/
theorem planOf_tree (consistent : memo.Consistent) : (plan : Plan) → {group : GroupId} →
    memo.IsPlan kind group plan → memo.planOf plan.tree = .ok plan
  | .node home id operator children, group, ⟨home_eq, id_mem, expression, stored, same, plans⟩ => by
      rcases consistent.stored_of_mem id_mem with ⟨other, other_stored, group_eq⟩
      rw [stored] at other_stored
      cases other_stored
      rw [Plan.tree, planOf, Memo.expression, stored]
      simp only [bind, Except.bind, plansOf_trees consistent children plans, pure, Except.pure]
      rw [group_eq, consistent.numbered stored, home_eq, same]

theorem plansOf_trees (consistent : memo.Consistent) : (plans : List Plan) →
    {groups : List GroupId} → memo.ArePlans kind groups plans →
      memo.plansOf (Plan.trees plans) = .ok plans
  | [], _, _ => rfl
  | plan :: rest, _ :: _, ⟨first, others⟩ => by
      rw [Plan.trees, plansOf]
      simp only [planOf_tree consistent plan first, plansOf_trees consistent rest others, bind,
        Except.bind, pure, Except.pure]

end

/-- Different plans have different expressions. -/
theorem tree_injective (consistent : memo.Consistent) (group : GroupId) :
    Set.InjOn Plan.tree (memo.plans kind group) := by
  intro first first_plan second second_plan same
  have first_eq := planOf_tree consistent first first_plan
  rw [same, planOf_tree consistent second second_plan] at first_eq
  exact (Except.ok.inj first_eq).symm

end Memo

namespace PlanSpace

variable {memo : Memo} {kind : PlanKind} {root : GroupId} {space : PlanSpace}

/-- A plan space that has been built from a consistent memo. -/
structure Represents (space : PlanSpace) (memo : Memo) (kind : PlanKind) (root : GroupId) :
    Prop where
  consistent : memo.Consistent
  holds : space.Holds (loaded memo kind (kind.members memo root)
    ((below memo kind root).flatMap (kind.members memo)))

theorem represents_of_build (consistent : memo.Consistent)
    (built : build memo root kind = .ok (.ok space)) : space.Represents memo kind root :=
  ⟨consistent, holds_of_build consistent built⟩

theorem below_child {id : GroupId} (id_mem : id ∈ below memo kind root) {member : ExprId}
    (member_mem : member ∈ kind.members memo id) :
    ∀ child ∈ memo.inputs member, child ∈ below memo kind root := by
  intro child child_mem
  rw [mem_below] at id_mem ⊢
  exact id_mem.tail ⟨member, member_mem, child_mem⟩

/-- A slot lists the expressions of a group. -/
def SlotOf (space : PlanSpace) (memo : Memo) (kind : PlanKind) (slot : List NodeId)
    (group : GroupId) : Prop :=
  ∀ id, (∃ node ∈ slot, valueOf space.nodes node = some id) ↔ id ∈ kind.members memo group

namespace Represents

section Nodes

variable (represents : space.Represents memo kind root)
include represents

theorem shaped : Shaped space.nodes :=
  represents.holds.shows.shaped

/-- The values of a plan space are the expressions of the groups below its root. -/
theorem valued_iff {id : ExprId} : (∃ node, valueOf space.nodes node = some id) ↔
    ∃ group ∈ below memo kind root, id ∈ kind.members memo group := by
  rw [← represents.holds.shows.has]
  simp only [loaded, List.mem_flatMap]
  constructor
  · rintro (id_mem | here | ⟨parent, ⟨group, group_mem, parent_mem⟩, child, child_mem, id_mem⟩)
    · exact ⟨root, mem_below.mpr .refl, id_mem⟩
    · exact here
    · exact ⟨child, below_child group_mem parent_mem child child_mem, id_mem⟩
  · exact fun here => .inr (.inl here)

theorem node_of_mem {group : GroupId} (group_mem : group ∈ below memo kind root) {id : ExprId}
    (id_mem : id ∈ kind.members memo group) : ∃ node, valueOf space.nodes node = some id :=
  represents.valued_iff.mpr ⟨group, group_mem, id_mem⟩

/-- A node is listed where the expression that it stands for lies in a child group. -/
theorem mem_slotAt {parent node : NodeId} {id member : ExprId}
    (parent_valued : valueOf space.nodes parent = some id)
    (valued : valueOf space.nodes node = some member) {slot : Nat} :
    node ∈ slotAt space.nodes parent slot ↔
      ∃ child, (memo.inputs id)[slot]? = some child ∧ member ∈ kind.members memo child := by
  have fills := represents.holds.shows.fills id slot member
  constructor
  · intro node_mem
    exact (fills.mpr ⟨parent, node, parent_valued, valued, node_mem⟩).2
  · intro listed
    have done : id ∈ (below memo kind root).flatMap (kind.members memo) :=
      List.mem_flatMap.mpr (represents.valued_iff.mp ⟨parent, parent_valued⟩)
    rcases fills.mp ⟨done, listed⟩ with ⟨first, second, first_valued, second_valued, second_mem⟩
    rwa [represents.shaped.distinct _ _ _ first_valued parent_valued,
      represents.shaped.distinct _ _ _ second_valued valued] at second_mem

/-- The slots of an expression list the expressions of its child groups. -/
theorem slots {parent : NodeId} {id : ExprId}
    (parent_valued : valueOf space.nodes parent = some id) :
    List.Forall₂ (space.SlotOf memo kind) (slotsOf space.nodes parent) (memo.inputs id) := by
  rcases represents.valued_iff.mp ⟨parent, parent_valued⟩ with ⟨group, group_mem, id_mem⟩
  rw [List.forall₂_iff_get]
  have length_eq : (slotsOf space.nodes parent).length = (memo.inputs id).length := by
    rw [represents.holds.shows.arity parent_valued]
    exact if_pos (List.mem_flatMap.mpr ⟨group, group_mem, id_mem⟩)
  refine ⟨length_eq, ?_⟩
  intro slot slot_lt input_lt member
  simp only [List.get_eq_getElem]
  have slot_eq : slotAt space.nodes parent slot = (slotsOf space.nodes parent)[slot] := by
    simp [slotAt, slot_lt]
  rw [← slot_eq]
  constructor
  · rintro ⟨node, node_mem, valued⟩
    rcases (represents.mem_slotAt parent_valued valued).mp node_mem with
      ⟨child, child_eq, member_mem⟩
    rw [List.getElem?_eq_getElem input_lt] at child_eq
    rwa [Option.some.inj child_eq]
  · intro member_mem
    have child_mem := below_child group_mem id_mem _ (List.getElem_mem input_lt)
    rcases represents.node_of_mem child_mem member_mem with ⟨node, valued⟩
    refine ⟨node, (represents.mem_slotAt parent_valued valued).mpr ?_, valued⟩
    exact ⟨_, List.getElem?_eq_getElem input_lt, member_mem⟩

/-- Trees may start with the expressions of the root group. No other expression is listed nowhere. -/
theorem mem_starts {node : NodeId} : node ∈ space.starts ↔
    ∃ id ∈ kind.members memo root, valueOf space.nodes node = some id := by
  have started := represents.holds.shows.starts
  rw [Forest.mem_starts represents.shaped]
  constructor
  · rintro (lists | ⟨⟨id, valued⟩, unlisted⟩)
    · rcases represents.shaped.listed_value lists with ⟨id, valued⟩
      rcases lists with ⟨slot, node_mem⟩
      have first : slot = 0 := by
        by_contra later
        have arity := represents.shaped.root_arity
        rw [slotAt, List.getD_eq_default _ _ (by omega)] at node_mem
        cases node_mem
      subst first
      exact ⟨id, (started id).mpr ⟨node, valued, node_mem⟩, valued⟩
    · refine ⟨id, ?_, valued⟩
      rcases represents.valued_iff.mp ⟨node, valued⟩ with ⟨group, group_mem, id_mem⟩
      rcases (mem_below.mp group_mem).cases_tail with rfl | ⟨parent, parent_mem, into⟩
      · exact id_mem
      -- An expression below the root lies in a child group of an expression that lists it.
      · rcases into with ⟨member, member_mem, input_mem⟩
        rcases represents.node_of_mem (mem_below.mpr parent_mem) member_mem with
          ⟨above, above_valued⟩
        rcases List.mem_iff_getElem?.mp input_mem with ⟨slot, at_slot⟩
        refine absurd ⟨slot, ?_⟩ (unlisted above)
        exact (represents.mem_slotAt above_valued valued).mpr ⟨group, at_slot, id_mem⟩
  · rintro ⟨id, id_mem, valued⟩
    rcases (started id).mp id_mem with ⟨other, other_valued, other_mem⟩
    rw [represents.shaped.distinct _ _ _ valued other_valued]
    exact .inl ⟨0, other_mem⟩

end Nodes

/-! ## Trees and plans -/

mutual

/-- A tree at an expression of a group is a plan of the group. -/
theorem exists_plan (represents : space.Represents memo kind root) : (tree : Tree ExprId) →
    {node : NodeId} → {group : GroupId} →
    group ∈ below memo kind root → HoldsTree space.nodes node tree →
      (∀ id, valueOf space.nodes node = some id → id ∈ kind.members memo group) →
        ∃ plan, memo.IsPlan kind group plan ∧ plan.tree = tree
  | .node id children, _, group, group_mem, ⟨valued, holds⟩, lies => by
      have id_mem := lies id valued
      rcases represents.consistent.stored_of_mem id_mem with ⟨expression, stored, -⟩
      have inputs_eq := Memo.inputs_eq stored
      rcases exists_plans represents children (represents.slots valued) (below_child group_mem id_mem)
        holds with ⟨plans, arePlans, trees_eq⟩
      refine ⟨.node group id expression.operator plans,
        ⟨rfl, id_mem, expression, stored, rfl, inputs_eq ▸ arePlans⟩, ?_⟩
      rw [Plan.tree, trees_eq]

theorem exists_plans (represents : space.Represents memo kind root) : (trees : List (Tree ExprId)) →
    {slots : List (List NodeId)} → {groups : List GroupId} → List.Forall₂ (space.SlotOf memo kind) slots groups →
      (∀ group ∈ groups, group ∈ below memo kind root) → HoldsTrees space.nodes slots trees →
        ∃ plans, memo.ArePlans kind groups plans ∧ Plan.trees plans = trees
  | [], _, _, .nil, _, _ => ⟨[], trivial, rfl⟩
  | tree :: rest, _, _, .cons slotOf others, groups_mem, ⟨⟨_, node_mem, holds⟩, rest_holds⟩ => by
      rcases exists_plan represents tree (groups_mem _ List.mem_cons_self) holds
        (fun id valued => (slotOf id).mp ⟨_, node_mem, valued⟩) with ⟨plan, isPlan, tree_eq⟩
      rcases exists_plans represents rest others
        (fun group group_mem => groups_mem group (List.mem_cons_of_mem _ group_mem)) rest_holds with
        ⟨plans, arePlans, trees_eq⟩
      exact ⟨plan :: plans, ⟨isPlan, arePlans⟩, by rw [Plan.trees, tree_eq, trees_eq]⟩

end

mutual

/-- The node of the first expression of a plan holds the plan. -/
theorem holdsTree (represents : space.Represents memo kind root) : (plan : Plan) →
    {group : GroupId} → group ∈ below memo kind root → memo.IsPlan kind group plan →
      ∃ id ∈ kind.members memo group, ∀ node, valueOf space.nodes node = some id →
        HoldsTree space.nodes node plan.tree
  | .node _ id _ children, _, group_mem, ⟨_, id_mem, _, stored, _, plans⟩ => by
      refine ⟨id, id_mem, ?_⟩
      intro node valued
      rw [← Memo.inputs_eq stored] at plans
      exact ⟨valued, holdsTrees represents children (represents.slots valued)
        (below_child group_mem id_mem) plans⟩

theorem holdsTrees (represents : space.Represents memo kind root) : (plans : List Plan) →
    {slots : List (List NodeId)} → {groups : List GroupId} → List.Forall₂ (space.SlotOf memo kind) slots groups →
      (∀ group ∈ groups, group ∈ below memo kind root) → memo.ArePlans kind groups plans →
        HoldsTrees space.nodes slots (Plan.trees plans)
  | [], _, _, .nil, _, _ => trivial
  | plan :: rest, _, _, .cons slotOf others, groups_mem, ⟨isPlan, arePlans⟩ => by
      rcases holdsTree represents plan (groups_mem _ List.mem_cons_self) isPlan with ⟨id, id_mem, holds⟩
      rcases (slotOf id).mpr id_mem with ⟨node, node_mem, valued⟩
      exact ⟨⟨node, node_mem, holds node valued⟩, holdsTrees represents rest others
        (fun group group_mem => groups_mem group (List.mem_cons_of_mem _ group_mem)) arePlans⟩

end

/-- The trees of a plan space are the plans of its root. -/
theorem trees_eq (represents : space.Represents memo kind root) :
    space.trees = Plan.tree '' memo.plans kind root := by
  have root_mem : root ∈ below memo kind root := mem_below.mpr .refl
  ext tree
  constructor
  · rintro ⟨node, node_mem, holds⟩
    rcases represents.mem_starts.mp node_mem with ⟨id, id_mem, valued⟩
    refine represents.exists_plan tree root_mem holds ?_
    intro other other_valued
    rwa [Option.some.inj (other_valued.symm.trans valued)]
  · rintro ⟨plan, isPlan, rfl⟩
    rcases represents.holdsTree plan root_mem isPlan with ⟨id, id_mem, holds⟩
    rcases represents.node_of_mem root_mem id_mem with ⟨node, valued⟩
    exact ⟨node, represents.mem_starts.mpr ⟨id, id_mem, valued⟩, holds node valued⟩

theorem ncard_trees (represents : space.Represents memo kind root) :
    space.trees.ncard = (memo.plans kind root).ncard := by
  rw [represents.trees_eq, (Memo.tree_injective represents.consistent root).ncard_image]

end Represents

end PlanSpace

end Cascades
