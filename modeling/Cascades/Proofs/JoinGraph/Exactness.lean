import Cascades.Proofs.JoinGraph.Enumerated
import Cascades.Proofs.PlanSpace.Exactness

/-!
# Join enumeration is exact

A plan follows a join order if it scans and joins as the order does, every join under the equalities
of the links that cross between its inputs. After a successful search of a connected graph of inner
joins, every logical plan of the root follows one join order of the graph, and every join order is
followed by one plan. How many there are does not depend on how the edges are listed or turned.
-/

namespace Cascades

open Saturating

namespace Plan

/-- The plan scans and joins in the given order, under the equalities of the crossing links. -/
def Follows (links : List Link) : Plan → JoinOrder → Prop
  | .node _ _ operator [], .scan table => operator = table.scan
  | .node _ _ operator [left, right], .join first second =>
      (∃ condition, operator = .logical (.join .inner condition) ∧
        ∀ scalar, scalar ∈ condition.conjuncts ↔
          ∃ link ∈ links, link.Crosses first.names second.names ∧ link.equality = scalar) ∧
        left.Follows links first ∧ right.Follows links second
  | _, _ => False

section Follows

variable {links : List Link} {plan : Plan}

theorem follows_scan {table : GraphTable} : plan.Follows links (.scan table) ↔
    ∃ home id, plan = .node home id table.scan [] := by
  rcases plan with ⟨home, id, operator, _ | ⟨left, rest⟩⟩
  · simp [Follows]
  · simp [Follows]

theorem follows_join {first second : JoinOrder} : plan.Follows links (.join first second) ↔
    ∃ home id condition left right,
      plan = .node home id (.logical (.join .inner condition)) [left, right] ∧
        (∀ scalar, scalar ∈ condition.conjuncts ↔
          ∃ link ∈ links, link.Crosses first.names second.names ∧ link.equality = scalar) ∧
            left.Follows links first ∧ right.Follows links second := by
  constructor
  · intro follows
    rcases plan with ⟨home, id, operator, _ | ⟨left, _ | ⟨right, _ | ⟨other, rest⟩⟩⟩⟩
    · exact follows.elim
    · exact follows.elim
    · rcases follows with ⟨⟨condition, rfl, conjuncts⟩, left_follows, right_follows⟩
      exact ⟨home, id, condition, left, right, rfl, conjuncts, left_follows, right_follows⟩
    · exact follows.elim
  · rintro ⟨home, id, condition, left, right, rfl, conjuncts, left_follows, right_follows⟩
    exact ⟨⟨condition, rfl, conjuncts⟩, left_follows, right_follows⟩

end Follows

end Plan

/-! ## Join orders -/

namespace JoinOrder

/-- The tables are some of a graph, and no name comes twice. -/
structure Within (order : JoinOrder) (tables : List GraphTable) : Prop where
  nodup : (order.tables.map GraphTable.name).Nodup
  subset : order.tables ⊆ tables

variable {tables : List GraphTable} {left right : JoinOrder}

theorem Within.of_left (within : (join left right).Within tables) : left.Within tables where
  nodup := by
    have nodup := within.nodup
    rw [JoinOrder.tables, List.map_append] at nodup
    exact nodup.of_append_left
  subset := fun _ table_mem => within.subset (List.mem_append_left _ table_mem)

theorem Within.of_right (within : (join left right).Within tables) : right.Within tables where
  nodup := by
    have nodup := within.nodup
    rw [JoinOrder.tables, List.map_append] at nodup
    exact nodup.of_append_right
  subset := fun _ table_mem => within.subset (List.mem_append_right _ table_mem)

theorem Within.disjoint (within : (join left right).Within tables) :
    Disjoint left.names right.names := by
  have nodup := within.nodup
  rw [JoinOrder.tables, List.map_append] at nodup
  rw [names, names, List.disjoint_toFinset_iff_disjoint]
  exact List.disjoint_of_nodup_append nodup

theorem Within.join (left_within : left.Within tables) (right_within : right.Within tables)
    (disjoint : Disjoint left.names right.names) : (join left right).Within tables where
  nodup := by
    rw [names, names, List.disjoint_toFinset_iff_disjoint] at disjoint
    rw [JoinOrder.tables, List.map_append]
    exact left_within.nodup.append right_within.nodup disjoint
  subset := List.append_subset.mpr ⟨left_within.subset, right_within.subset⟩

/-- An order over some tables of a graph that has all names is over all tables. -/
theorem admits_iff {graph : JoinGraph} (names : (graph.tables.map GraphTable.name).Nodup)
    {order : JoinOrder} : graph.Admits order ↔
      order.Within graph.tables ∧ order.names = graph.names ∧ order.Crossed graph.links := by
  constructor
  · rintro ⟨perm, crossed⟩
    refine ⟨⟨(perm.map GraphTable.name).nodup_iff.mpr names, perm.subset⟩, ?_, crossed⟩
    rw [JoinOrder.names, JoinGraph.names, List.toFinset_eq_of_perm _ _ (perm.map GraphTable.name)]
  · rintro ⟨within, names_eq, crossed⟩
    refine ⟨?_, crossed⟩
    rw [List.perm_ext_iff_of_nodup within.nodup.of_map names.of_map]
    intro table
    refine ⟨fun table_mem => within.subset table_mem, fun table_mem => ?_⟩
    have name_mem : table.name ∈ order.names := by
      rw [names_eq]
      exact JoinGraph.mem_names.mpr ⟨table, table_mem, rfl⟩
    rcases List.mem_map.mp (List.mem_toFinset.mp name_mem) with ⟨other, other_mem, same⟩
    rwa [List.inj_on_of_nodup_map names (within.subset other_mem) table_mem same] at other_mem

end JoinOrder

/-- A plan follows one order over tables with different names. -/
theorem Plan.Follows.order_unique {links : List Link} {tables : List GraphTable}
    (names : (tables.map GraphTable.name).Nodup) {plan : Plan} {first second : JoinOrder}
    (first_follows : plan.Follows links first) (second_follows : plan.Follows links second)
    (first_within : first.Within tables) (second_within : second.Within tables) :
    first = second := by
  induction first generalizing plan second with
  | scan table =>
      rcases Plan.follows_scan.mp first_follows with ⟨home, id, rfl⟩
      cases second with
      | join left right => exact second_follows.elim
      | scan other =>
          have same : table.scan = other.scan := second_follows
          have name_eq : table.name = other.name := by
            injection same with inner
            injection inner with reference
            exact congrArg TableRef.name reference
          rw [List.inj_on_of_nodup_map names (first_within.subset List.mem_cons_self)
            (second_within.subset List.mem_cons_self) name_eq]
  | join left right left_ih right_ih =>
      rcases Plan.follows_join.mp first_follows with
        ⟨home, id, condition, left_plan, right_plan, rfl, -, left_follows, right_follows⟩
      cases second with
      | scan table => exact second_follows.elim
      | join other_left other_right =>
          rw [left_ih left_follows second_follows.2.1 first_within.of_left second_within.of_left,
            right_ih right_follows second_follows.2.2 first_within.of_right second_within.of_right]

/-! ## Plans of the searched memo -/

section Members

variable {memo : Memo}

theorem Memo.mem_members_logical (consistent : memo.Consistent) {id : ExprId} {group : GroupId} :
    id ∈ PlanKind.logical.members memo group ↔ ∃ expression ∈ memo.logicalIn group,
      memo.expression? id = some expression := by
  rw [consistent.mem_members]
  constructor
  · rintro ⟨expression, stored, rfl, kind_eq⟩
    have logical : expression.operator.isLogical = true := by
      simpa [Operator.planKind] using kind_eq
    exact ⟨expression, (Memo.mem_logicalIn consistent).mpr ⟨consistent.numbered stored ▸ stored, rfl,
      logical⟩, stored⟩
  · rintro ⟨expression, expression_mem, stored⟩
    rcases (Memo.mem_logicalIn consistent).mp expression_mem with ⟨-, rfl, logical⟩
    exact ⟨expression, stored, rfl, by simp [Operator.planKind, logical]⟩

end Members

namespace Enumerated

variable {graph : JoinGraph} {planned : PlannedGraph} {first : Nat} {catalog : Catalog} {memo : Memo}
  {label stemLabel : GroupId → Finset String}
  (enumerated : Enumerated graph planned first stemLabel catalog label memo)
include enumerated

/-- Every logical plan of a group follows an order of the tables below the group. -/
theorem exists_order : (plan : Plan) → {group : GroupId} → memo.IsPlan .logical group plan →
    ∃ order, plan.Follows graph.links order ∧ order.names = label group ∧
      order.Within graph.tables ∧ order.Crossed graph.links
  | .node home id operator children, group, ⟨home_eq, id_mem, expression, stored, same, plans⟩ => by
      rcases (Memo.mem_members_logical enumerated.consistent).mp id_mem with
        ⟨found, found_mem, found_stored⟩
      obtain rfl := Option.some.inj (stored.symm.trans found_stored)
      rcases enumerated.chart.drawn_of_mem enumerated.consistent found_mem with ⟨group_eq, drawn⟩
      cases drawn with
      | @scan position table found position_eq operator_eq children_eq label_eq =>
          rw [children_eq] at plans
          obtain rfl := Memo.arePlans_nil.mp plans
          refine ⟨.scan table, same.symm.trans operator_eq, ?_, ⟨by simp [JoinOrder.tables], ?_⟩,
            trivial⟩
          · rw [JoinOrder.names_scan, ← label_eq, ← position_eq, group_eq]
          · exact List.cons_subset.mpr ⟨List.mem_of_getElem? found, List.nil_subset _⟩
      | @join left right children_eq operator_eq label_eq disjoint touch =>
          rw [children_eq] at plans
          rcases Memo.arePlans_pair.mp plans with ⟨left_plan, right_plan, rfl, left_isPlan, right_isPlan⟩
          rcases exists_order left_plan left_isPlan with
            ⟨left_order, left_follows, left_names, left_within, left_crossed⟩
          rcases exists_order right_plan right_isPlan with
            ⟨right_order, right_follows, right_names, right_within, right_crossed⟩
          rw [← left_names, ← right_names] at disjoint touch label_eq operator_eq
          refine ⟨.join left_order right_order,
            ⟨⟨_, same.symm.trans operator_eq, fun scalar => mem_conjuncts enumerated.legible touch⟩,
              left_follows, right_follows⟩, ?_, left_within.join right_within disjoint,
            touch, left_crossed, right_crossed⟩
          rw [JoinOrder.names_join, ← label_eq, group_eq]

/-- Every order of tables is followed by a plan of the group of these tables. -/
theorem exists_plan (order : JoinOrder) (within : order.Within graph.tables)
    (crossed : order.Crossed graph.links) : ∃ group plan, (group : Nat) < memo.groups.size ∧
      label group = order.names ∧ memo.IsPlan .logical group plan ∧
        plan.Follows graph.links order := by
  induction order with
  | scan table =>
      rcases List.getElem_of_mem (within.subset List.mem_cons_self) with ⟨position, bounded, table_eq⟩
      have found : graph.tables[position]? = some table := by
        rw [List.getElem?_eq_getElem bounded, table_eq]
      rcases enumerated.chart.scan enumerated.deep enumerated.consistent found with
        ⟨⟨expression, expression_mem, operator_eq, children_eq⟩, label_eq⟩
      have stored := ((Memo.mem_logicalIn enumerated.consistent).mp expression_mem).1
      refine ⟨position, .node position expression.id table.scan [], ?_, by simpa using label_eq, ?_, rfl⟩
      · exact Nat.lt_of_lt_of_le bounded (Nat.le_trans enumerated.deep.enough enumerated.size_le)
      · refine ⟨rfl, (Memo.mem_members_logical enumerated.consistent).mpr
          ⟨expression, expression_mem, stored⟩, expression, stored, operator_eq, ?_⟩
        rw [children_eq]
        trivial
  | join left right left_ih right_ih =>
      rcases left_ih within.of_left crossed.2.1 with
        ⟨left_group, left_plan, left_lt, left_label, left_is, left_follows⟩
      rcases right_ih within.of_right crossed.2.2 with
        ⟨right_group, right_plan, right_lt, right_label, right_is, right_follows⟩
      have touch : Touch graph.links (label left_group) (label right_group) := by
        rw [left_label, right_label]
        exact crossed.1
      have disjoint : Disjoint (label left_group) (label right_group) := by
        rw [left_label, right_label]
        exact within.disjoint
      rcases (enumerated.joins_iff left_lt right_lt).mpr ⟨disjoint, touch⟩ with ⟨group, joins⟩
      rcases enumerated.chart.of_joins enumerated.consistent joins with
        ⟨⟨expression, expression_mem, children_eq, operator_eq⟩, label_eq, -⟩
      have stored := ((Memo.mem_logicalIn enumerated.consistent).mp expression_mem).1
      refine ⟨group, .node group expression.id expression.operator [left_plan, right_plan],
        (joins.lt enumerated.consistent enumerated.closed).1, ?_, ?_, ?_⟩
      · rw [label_eq, left_label, right_label, JoinOrder.names_join]
      · refine ⟨rfl, (Memo.mem_members_logical enumerated.consistent).mpr
          ⟨expression, expression_mem, stored⟩, expression, stored, rfl, ?_⟩
        rw [children_eq]
        exact ⟨left_is, right_is, trivial⟩
      · refine ⟨⟨_, operator_eq, fun scalar => ?_⟩, left_follows, right_follows⟩
        rw [mem_conjuncts enumerated.legible touch, left_label, right_label]

/-- The condition of a join is determined by its inputs. -/
theorem operator_of_mem {group left right : GroupId} {id : ExprId} {expression : Expression}
    (id_mem : id ∈ PlanKind.logical.members memo group)
    (stored : memo.expression? id = some expression) (children_eq : expression.children = [left, right]) :
    expression.operator = joinAcross graph.links (label left) (label right) := by
  rcases (Memo.mem_members_logical enumerated.consistent).mp id_mem with ⟨found, found_mem, found_eq⟩
  obtain rfl := Option.some.inj (stored.symm.trans found_eq)
  have drawn := (enumerated.chart.drawn_of_mem enumerated.consistent found_mem).2
  exact (Expression.join?_eq_some.mp (drawn.join?_eq children_eq)).1

/-- Plans that follow the same order are plans of the same group, and the same. -/
theorem plan_unique (order : JoinOrder) {group other : GroupId} {plan twin : Plan}
    (isPlan : memo.IsPlan .logical group plan) (twin_is : memo.IsPlan .logical other twin)
    (follows : plan.Follows graph.links order) (twin_follows : twin.Follows graph.links order) :
    plan = twin ∧ group = other := by
  have consistent := enumerated.consistent
  induction order generalizing group other plan twin with
  | scan table =>
      rcases Plan.follows_scan.mp follows with ⟨home, id, rfl⟩
      rcases Plan.follows_scan.mp twin_follows with ⟨twin_home, twin_id, rfl⟩
      rcases isPlan with ⟨rfl, id_mem, expression, stored, operator_eq, inputs⟩
      rcases twin_is with ⟨rfl, twin_mem, found, twin_stored, twin_operator, twin_inputs⟩
      rw [Memo.arePlans_nil_right] at inputs twin_inputs
      rcases consistent.shape_unique id_mem twin_mem stored twin_stored
        (inputs.trans twin_inputs.symm)
        (by rw [operator_eq, twin_operator]; exact Operator.same_self _) with ⟨rfl, rfl, -⟩
      exact ⟨rfl, rfl⟩
  | join left right left_ih right_ih =>
      rcases Plan.follows_join.mp follows with
        ⟨home, id, condition, left_plan, right_plan, rfl, -, left_follows, right_follows⟩
      rcases Plan.follows_join.mp twin_follows with
        ⟨twin_home, twin_id, twin_condition, left_twin, right_twin, rfl, -, left_too, right_too⟩
      rcases isPlan with ⟨rfl, id_mem, expression, stored, operator_eq, inputs⟩
      rcases twin_is with ⟨rfl, twin_mem, found, twin_stored, twin_operator, twin_inputs⟩
      rcases Memo.arePlans_pair_right.mp inputs with
        ⟨left_group, right_group, children_eq, left_is, right_is⟩
      rcases Memo.arePlans_pair_right.mp twin_inputs with
        ⟨left_other, right_other, twin_children, left_twin_is, right_twin_is⟩
      rcases left_ih left_is left_twin_is left_follows left_too with ⟨rfl, rfl⟩
      rcases right_ih right_is right_twin_is right_follows right_too with ⟨rfl, rfl⟩
      have same : expression.operator = found.operator :=
        (enumerated.operator_of_mem id_mem stored children_eq).trans
          (enumerated.operator_of_mem twin_mem twin_stored twin_children).symm
      rcases consistent.shape_unique id_mem twin_mem stored twin_stored
        (children_eq.trans twin_children.symm)
        (by rw [same]; exact Operator.same_self _) with ⟨rfl, rfl, -⟩
      rw [← operator_eq, ← twin_operator, same]
      exact ⟨rfl, rfl⟩

/-- No group reaches itself, since labels shrink from a group to its inputs. -/
theorem acyclic (root : GroupId) : memo.AcyclicBelow .logical root := by
  have shrinks {group next : GroupId} (leadsTo : memo.LeadsTo .logical group next) :
      label next ⊂ label group := by
    rcases leadsTo with ⟨id, id_mem, next_mem⟩
    rcases (Memo.mem_members_logical enumerated.consistent).mp id_mem with
      ⟨expression, expression_mem, stored⟩
    rw [Memo.inputs_eq stored] at next_mem
    cases (enumerated.chart.drawn_of_mem enumerated.consistent expression_mem).2 with
    | scan _ _ _ children_eq _ => simp [children_eq] at next_mem
    | @join left right children_eq _ _ _ _ =>
        have proper := enumerated.label_ssubset ⟨expression, expression_mem, children_eq⟩
        rw [children_eq] at next_mem
        rcases List.mem_pair.mp next_mem with rfl | rfl
        · exact proper.1
        · exact proper.2
  intro group _ loop
  have smaller {first last : GroupId} (path : Relation.TransGen (memo.LeadsTo .logical) first last) :
      label last ⊂ label first := by
    induction path with
    | single leadsTo => exact shrinks leadsTo
    | tail _ leadsTo ih => exact (shrinks leadsTo).trans ih
  exact (smaller loop).ne rfl

/-- Only the root has all tables below it. -/
theorem eq_root {group : Nat} (group_lt : group < memo.groups.size)
    (label_eq : label group = graph.names) : group = planned.root := by
  rcases enumerated.has_parent group_lt with root | ⟨parent, sibling, joins⟩
  · exact root
  · have above : label group ⊂ label parent ∧ label parent ⊆ graph.names := by
      rcases joins with joins | joins
      · exact ⟨(enumerated.label_ssubset joins).2,
          enumerated.within (joins.lt enumerated.consistent enumerated.closed).1⟩
      · exact ⟨(enumerated.label_ssubset joins).1,
          enumerated.within (joins.lt enumerated.consistent enumerated.closed).1⟩
    exact absurd (label_eq ▸ above.1) (not_ssubset_of_subset above.2)

/-- Every plan of the root follows one order of the graph. -/
theorem follows_unique {plan : Plan} (isPlan : plan ∈ memo.plans .logical planned.root) :
    ∃! order, graph.Admits order ∧ plan.Follows graph.links order := by
  rcases enumerated.exists_order plan isPlan with ⟨order, follows, names_eq, within, crossed⟩
  rw [enumerated.label_root] at names_eq
  refine ⟨order, ⟨(JoinOrder.admits_iff enumerated.names).mpr ⟨within, names_eq, crossed⟩, follows⟩, ?_⟩
  rintro other ⟨admits, other_follows⟩
  exact other_follows.order_unique enumerated.names follows
    ((JoinOrder.admits_iff enumerated.names).mp admits).1 within

/-- Every order of the graph is followed by one plan of the root. -/
theorem followed_unique {order : JoinOrder} (admits : graph.Admits order) :
    ∃! plan, plan ∈ memo.plans .logical planned.root ∧ plan.Follows graph.links order := by
  rcases (JoinOrder.admits_iff enumerated.names).mp admits with ⟨within, names_eq, crossed⟩
  rcases enumerated.exists_plan order within crossed with
    ⟨group, plan, group_lt, label_eq, isPlan, follows⟩
  obtain rfl := enumerated.eq_root group_lt (label_eq.trans names_eq)
  refine ⟨plan, ⟨isPlan, follows⟩, ?_⟩
  rintro other ⟨other_plan, other_follows⟩
  exact (enumerated.plan_unique order other_plan isPlan other_follows follows).1

/-- There are as many plans of the root as orders of the graph. -/
theorem ncard_plans :
    (memo.plans .logical planned.root).ncard = { order | graph.Admits order }.ncard := by
  choose order follows unique using
    fun (plan : Plan) (isPlan : plan ∈ memo.plans .logical planned.root) =>
      enumerated.follows_unique isPlan
  refine Set.ncard_congr order (fun plan isPlan => (follows plan isPlan).1) ?_ ?_
  · intro first second first_plan second_plan same
    refine (enumerated.followed_unique (follows first first_plan).1).unique
      ⟨first_plan, (follows first first_plan).2⟩ ⟨second_plan, ?_⟩
    rw [same]
    exact (follows second second_plan).2
  · intro other admits
    rcases enumerated.followed_unique admits with ⟨plan, ⟨isPlan, other_follows⟩, -⟩
    exact ⟨plan, isPlan, (unique plan isPlan other ⟨admits, other_follows⟩).symm⟩

theorem finite_orders (finite : (memo.plans .logical planned.root).Finite) :
    { order | graph.Admits order }.Finite := by
  choose plan isPlan unique using
    fun (order : JoinOrder) (admits : graph.Admits order) => enumerated.followed_unique admits
  have := finite.to_subtype
  refine Set.finite_coe_iff.mp (Finite.of_injective (β := memo.plans .logical planned.root)
    (fun order => ⟨plan order.1 order.2, (isPlan order.1 order.2).1⟩) ?_)
  intro first second same
  have plan_eq : plan first.1 first.2 = plan second.1 second.2 := congrArg Subtype.val same
  refine Subtype.ext ((enumerated.follows_unique (isPlan first.1 first.2).1).unique
    ⟨first.2, (isPlan first.1 first.2).2⟩ ⟨second.2, ?_⟩)
  rw [plan_eq]
  exact (isPlan second.1 second.2).2

end Enumerated

/-! ## Edges in another order -/

/-- The same edge, read the other way round. -/
def GraphEdge.turned (edge : GraphEdge) : GraphEdge :=
  ⟨edge.rightTable, edge.leftTable, edge.joinType, edge.rightColumn, edge.leftColumn⟩

namespace JoinGraph

/-- The graphs have the same edges, up to their order and direction. -/
def SameEdges (graph other : JoinGraph) : Prop :=
  other.tables = graph.tables ∧ ∀ edge, (edge ∈ other.edges ∨ edge.turned ∈ other.edges) ↔
    (edge ∈ graph.edges ∨ edge.turned ∈ graph.edges)

section SameEdges

variable {graph other : JoinGraph} {first second : Finset String}

/-- Two sets of tables touch if an edge, read in some direction, leads from one to the other. -/
theorem touch_iff : Touch graph.links first second ↔
    ∃ edge, (edge ∈ graph.edges ∨ edge.turned ∈ graph.edges) ∧ ∃ left right,
      graph.table? edge.leftTable = some left ∧ graph.table? edge.rightTable = some right ∧
        left.name ∈ first ∧ right.name ∈ second := by
  constructor
  · rintro ⟨link, link_mem, crosses⟩
    rcases List.mem_filterMap.mp link_mem with ⟨edge, edge_mem, link_eq⟩
    rw [link?] at link_eq
    split at link_eq
    · rename_i left right left_found right_found
      cases link_eq
      rcases crosses with ⟨left_mem, right_mem⟩ | ⟨right_mem, left_mem⟩
      · exact ⟨edge, .inl edge_mem, left, right, left_found, right_found, left_mem, right_mem⟩
      · exact ⟨edge.turned, .inr edge_mem, right, left, right_found, left_found, right_mem, left_mem⟩
    · cases link_eq
  · rintro ⟨edge, edge_mem, left, right, left_found, right_found, left_mem, right_mem⟩
    rcases edge_mem with edge_mem | edge_mem
    · refine ⟨⟨left.name, edge.leftColumn, right.name, edge.rightColumn⟩,
        List.mem_filterMap.mpr ⟨edge, edge_mem, ?_⟩, .inl ⟨left_mem, right_mem⟩⟩
      rw [link?, left_found, right_found]
    · refine ⟨⟨right.name, edge.rightColumn, left.name, edge.leftColumn⟩,
        List.mem_filterMap.mpr ⟨edge.turned, edge_mem, ?_⟩, .inr ⟨left_mem, right_mem⟩⟩
      rw [link?, GraphEdge.turned, right_found, left_found]

theorem SameEdges.admits_iff (same : graph.SameEdges other) (order : JoinOrder) :
    other.Admits order ↔ graph.Admits order := by
  have touch (first second : Finset String) :
      Touch other.links first second ↔ Touch graph.links first second := by
    simp only [touch_iff, same.2, table?, same.1]
  have crossed : order.Crossed other.links ↔ order.Crossed graph.links := by
    induction order with
    | scan table => exact .rfl
    | join left right left_ih right_ih =>
        simp only [JoinOrder.Crossed, touch, left_ih, right_ih]
  rw [Admits, Admits, crossed, same.1]

end SameEdges

/-! ## Searching a join graph -/

variable {graph : JoinGraph} {planned : PlannedGraph} {catalog : Catalog} {config : SearchConfig}
  {report : RunReport}

theorem enumerated_of_runs (plan_eq : graph.plan = .ok planned)
    (names : (graph.tables.map GraphTable.name).Nodup)
    (inner : ∀ edge ∈ graph.edges, JoinType.parse edge.joinType = .ok .inner)
    (connected : graph.Connected) (legible : Scalar.Legible (graph.links.map Link.equality))
    (runs : planned.memo.Runs .standard catalog config planned.root report)
    (succeeded : report.outcome = .ok ()) : ∃ first label stemLabel,
      Enumerated graph planned first stemLabel catalog label report.memo := by
  rcases plan_isLeftDeep plan_eq names inner connected with ⟨stemLabel, first, start⟩
  have keeps := Memo.search_keeps (enumerating_discipline start.deep legible)
    start.deep.enumerating runs
  rcases keeps.kept with ⟨saturating, label, chart, born⟩
  exact ⟨first, label, stemLabel, start, names, legible, saturating, chart, born,
    saturating.explored (keeps.reached succeeded)⟩

/--
After a successful search of a connected graph of inner joins over tables with different names, the
logical plans of the root and the join orders of the graph follow each other one to one. So counting
them gives the number of join orders up to saturation, and every rank below it gives one of the
plans. Neither the order nor the direction of the edges has an influence on the join orders.
-/
theorem enumeration_exact (plan_eq : graph.plan = .ok planned)
    (names : (graph.tables.map GraphTable.name).Nodup)
    (inner : ∀ edge ∈ graph.edges, JoinType.parse edge.joinType = .ok .inner)
    (connected : graph.Connected)
    (legible : ∀ first ∈ graph.links, ∀ second ∈ graph.links,
      first.equality.text = second.equality.text → first.equality = second.equality)
    (runs : planned.memo.Runs .standard catalog config planned.root report)
    (succeeded : report.outcome = .ok ()) :
    (∀ plan ∈ report.memo.plans .logical planned.root,
        ∃! order, graph.Admits order ∧ plan.Follows graph.links order) ∧
      (∀ order, graph.Admits order → ∃! plan, plan ∈ report.memo.plans .logical planned.root ∧
        plan.Follows graph.links order) ∧
      { order | graph.Admits order }.Finite ∧
      (∃ space, PlanSpace.build report.memo planned.root .logical = .ok (.ok space) ∧
        space.treeCount.2 = .ok (min { order | graph.Admits order }.ncard limit) ∧
        (∀ rank < min { order | graph.Admits order }.ncard limit,
          ∃ plan ∈ report.memo.plans .logical planned.root, space.Gives report.memo rank plan) ∧
        ({ order | graph.Admits order }.ncard ≤ limit →
          ∀ plan ∈ report.memo.plans .logical planned.root,
            ∃! rank, space.Gives report.memo rank plan)) ∧
      ∀ other, graph.SameEdges other → ∀ order, other.Admits order ↔ graph.Admits order := by
  have all_legible : Scalar.Legible (graph.links.map Link.equality) := by
    refine ⟨?_, ?_⟩
    · intro scalar scalar_mem
      rcases List.mem_map.mp scalar_mem with ⟨link, -, rfl⟩
      rfl
    · intro scalar scalar_mem other other_mem
      rcases List.mem_map.mp scalar_mem with ⟨link, link_mem, rfl⟩
      rcases List.mem_map.mp other_mem with ⟨other_link, other_link_mem, rfl⟩
      exact legible link link_mem other_link other_link_mem
  rcases enumerated_of_runs plan_eq names inner connected all_legible runs succeeded with
    ⟨first, label, stemLabel, enumerated⟩
  have root_lt : (planned.root : Nat) < report.memo.groups.size := enumerated.explored.lt
  rcases PlanSpace.build_of_acyclic enumerated.consistent enumerated.closed root_lt
    (enumerated.acyclic planned.root) with ⟨space, built⟩
  have represents := PlanSpace.represents_of_build enumerated.consistent built
  have acyclic : ¬ Forest.Cyclic space.nodes := fun cyclic =>
    represents.cyclic_iff.mp cyclic (enumerated.acyclic planned.root)
  have counted := represents.holds.reached.treeCount_of_acyclic acyclic
  rw [represents.ncard_trees, enumerated.ncard_plans, clip] at counted
  refine ⟨fun plan isPlan => enumerated.follows_unique isPlan,
    fun order admits => enumerated.followed_unique admits,
    enumerated.finite_orders (represents.finite_plans counted), ⟨space, built, counted, ?_, ?_⟩,
    fun other same => same.admits_iff⟩
  · intro rank below
    rcases represents.gives_of_lt counted .none below with ⟨plan, isPlan, gives, -⟩
    exact ⟨plan, isPlan, gives⟩
  · intro fits plan isPlan
    rw [← enumerated.ncard_plans] at fits
    have gives_iff (rank : Nat) :
        space.Gives report.memo rank plan ↔ space.rank plan.tree = rank :=
      represents.gives_iff counted fits .none isPlan
    exact ⟨space.rank plan.tree, (gives_iff _).mpr rfl,
      fun other gives => ((gives_iff other).mp gives).symm⟩

/-- Three tables, each of which is joined with the next. -/
def chain : JoinGraph :=
  let table (name : String) : GraphTable := ⟨name, "public", name, ["x", "y"]⟩
  ⟨[table "a", table "b", table "c"],
    [⟨"a", "b", "INNER", "x", "x"⟩, ⟨"c", "b", "INNER", "y", "y"⟩], none⟩

theorem chain_connected : chain.Connected := by
  have near : Touch chain.links {"a"} {"b"} :=
    ⟨⟨"a", "x", "b", "x"⟩, by decide, by decide⟩
  have far : Touch chain.links {"b"} {"c"} :=
    ⟨⟨"c", "y", "b", "y"⟩, by decide, by decide⟩
  have reaches (table : String) (table_mem : table ∈ chain.names) :
      Relation.ReflTransGen (fun table next => Touch chain.links {table} {next}) table "b" ∧
        Relation.ReflTransGen (fun table next => Touch chain.links {table} {next}) "b" table := by
    have cases_ : table = "a" ∨ table = "b" ∨ table = "c" := by
      simpa [chain, names] using table_mem
    rcases cases_ with rfl | rfl | rfl
    · exact ⟨.single near, .single near.symm⟩
    · exact ⟨.refl, .refl⟩
    · exact ⟨.single far.symm, .single far⟩
  exact fun first first_mem second second_mem =>
    (reaches first first_mem).1.trans (reaches second second_mem).2

/-- The root of a graph, and the memo that a default search of it leaves behind unless something fails. -/
def searched (graph : JoinGraph) : Option (GroupId × Memo) :=
  graph.plan.toOption.bind fun planned =>
    (planned.memo.search .standard planned.catalog .standard planned.root false).toOption.bind
      fun report => report.outcome.toOption.map fun _ => (planned.root, report.memo)

theorem of_searched {root : GroupId} {memo : Memo} (found : graph.searched = some (root, memo)) :
    ∃ planned report, graph.plan = .ok planned ∧
      planned.memo.search .standard planned.catalog .standard planned.root false = .ok report ∧
        report.outcome = .ok () ∧ planned.root = root ∧ report.memo = memo := by
  rw [searched] at found
  cases plan_eq : graph.plan with
  | error failure =>
      rw [plan_eq] at found
      cases found
  | ok planned =>
      rw [plan_eq] at found
      simp only [Except.toOption, Option.bind_some] at found
      cases search_eq : planned.memo.search .standard planned.catalog .standard planned.root false with
      | error dangling =>
          rw [search_eq] at found
          cases found
      | ok report =>
          rw [search_eq] at found
          simp only [Option.bind_some] at found
          cases succeeded : report.outcome with
          | error failure =>
              rw [succeeded] at found
              cases found
          | ok done =>
              rw [succeeded] at found
              cases found
              exact ⟨planned, report, rfl, search_eq, succeeded, rfl, rfl⟩

/-- What a default search of the chain leaves behind, with eight logical plans. -/
def chainSearched :=
  tested chain.searched (fun found =>
    decide (PlanSpace.countPlans found.2 found.1 .logical = some (.ok 8)) &&
      (PlanSpace.planAt found.2 found.1 .logical 4).isSome) (by decide +kernel)

theorem chain_searched : ∃ root memo plan, chain.searched = some (root, memo) ∧
    PlanSpace.countPlans memo root .logical = some (.ok 8) ∧
      PlanSpace.planAt memo root .logical 4 = some plan := by
  rcases chainSearched with ⟨⟨root, memo⟩, searched_eq, facts⟩
  rw [Bool.and_eq_true, decide_eq_true_iff, Option.isSome_iff_exists] at facts
  rcases facts with ⟨counts, plan, plan_found⟩
  exact ⟨root, memo, plan, searched_eq, counts, plan_found⟩

/-- The two trees over a chain of three tables have two joins that can be turned: eight orders. -/
theorem enumeration_exact_chain : { order | chain.Admits order }.ncard = 8 ∧
    ∃ planned report space, chain.plan = .ok planned ∧
      planned.memo.search .standard planned.catalog .standard planned.root false = .ok report ∧
        PlanSpace.build report.memo planned.root .logical = .ok (.ok space) ∧
          space.treeCount.2 = .ok 8 ∧
            ∀ plan ∈ report.memo.plans .logical planned.root,
              ∃! rank, PlanSpace.Gives space report.memo rank plan := by
  rcases chain_searched with ⟨root, memo, -, searched_eq, counts, -⟩
  rcases of_searched searched_eq with ⟨planned, report, plan_eq, search_eq, succeeded, rfl, rfl⟩
  rcases PlanSpace.of_countPlans counts with ⟨space, built, counted⟩
  rcases enumeration_exact plan_eq (by decide) (by decide) chain_connected
    (by decide) (.inl ⟨false, search_eq⟩) succeeded with
    ⟨-, -, -, ⟨other, other_built, other_counted, -, ranks⟩, -⟩
  obtain rfl : space = other := by
    rw [built] at other_built
    exact Except.ok.inj (Except.ok.inj other_built)
  rw [counted] at other_counted
  have number_eq := Except.ok.inj other_counted
  have eight_lt : 8 < limit := by decide
  have eight : { order | chain.Admits order }.ncard = 8 := by omega
  exact ⟨eight, planned, report, space, plan_eq, search_eq, built, counted, ranks (by omega)⟩

end JoinGraph

end Cascades
