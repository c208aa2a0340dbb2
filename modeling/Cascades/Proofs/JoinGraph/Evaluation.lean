import Cascades.Proofs.JoinGraph.Exactness
import Cascades.Proofs.JoinGraph.Mapping
import Cascades.Proofs.JoinGraph.Planned
import Cascades.Proofs.Search.Operations

/-!
# Edges are evaluated where their tables meet

A plan evaluates an edge of a join graph if one of its joins has the equality of the edge among its
conjuncts and scans one table of the edge below its left input and the other one below its right input.
If the tables of a graph are told apart by their names, every plan that a search finds for its root
evaluates all edges.

Columns are qualified by the name of their table without its schema. So if two tables of different
schemas share a name, associativity takes a conjunct to connect the wrong one of them, and moves it to
a join below which the table is not scanned.
-/

namespace Cascades

namespace Plan

mutual

/-- The tables that are scanned at the leaves. -/
def scans : Plan → List TableRef
  | .node _ _ operator children => operator.scanned?.toList ++ scansOf children

/-- The tables that the plans of a list scan. -/
def scansOf : List Plan → List TableRef
  | [] => []
  | plan :: rest => plan.scans ++ scansOf rest

end

mutual

/-- A plan with the plans below it. -/
def nodes : Plan → List Plan
  | .node group id operator children => .node group id operator children :: nodesOf children

/-- The nodes of the plans of a list. -/
def nodesOf : List Plan → List Plan
  | [] => []
  | plan :: rest => plan.nodes ++ nodesOf rest

end

/-- A join with a conjunct in its condition, and with a scan of a table below each of its inputs. -/
def Tests (conjunct : Scalar) (first second : TableRef) : Plan → Prop
  | .node _ _ operator [left, right] =>
      (∃ condition ∈ operator.condition?, conjunct ∈ condition.conjuncts) ∧
        ((first ∈ left.scans ∧ second ∈ right.scans) ∨ (second ∈ left.scans ∧ first ∈ right.scans))
  | _ => False

instance (conjunct : Scalar) (first second : TableRef) : DecidablePred (Tests conjunct first second)
  | .node _ _ _ [_, _] => inferInstanceAs (Decidable (_ ∧ _))
  | .node _ _ _ [] => .isFalse id
  | .node _ _ _ [_] => .isFalse id
  | .node _ _ _ (_ :: _ :: _ :: _) => .isFalse id

/-- Some join of the plan tests the equality of an edge over scans of the tables of the edge. -/
def Evaluates (plan : Plan) (graph : JoinGraph) (edge : GraphEdge) : Prop :=
  ∃ left ∈ graph.table? edge.leftTable, ∃ right ∈ graph.table? edge.rightTable,
    ∃ node ∈ plan.nodes, node.Tests
      (.equality left.name edge.leftColumn right.name edge.rightColumn) left.reference right.reference

instance (plan : Plan) (graph : JoinGraph) (edge : GraphEdge) : Decidable (plan.Evaluates graph edge) :=
  inferInstanceAs (Decidable (∃ left ∈ graph.table? edge.leftTable,
    ∃ right ∈ graph.table? edge.rightTable, ∃ node ∈ plan.nodes, node.Tests
      (.equality left.name edge.leftColumn right.name edge.rightColumn) left.reference right.reference))

/-- A plan that scans tables of the given names, and in which joins carry the links of their inputs. -/
inductive Placed (links : List Link) (tables : List GraphTable) : Plan → Finset String → Prop
  | scan {group : GroupId} {id : ExprId} {operator : Operator} {table : GraphTable}
      (table_mem : table ∈ tables) (scanned_eq : operator.scanned? = some table.reference) :
      Placed links tables (.node group id operator []) {table.name}
  | join {group : GroupId} {id : ExprId} {operator : Operator} {condition : Scalar} {left right : Plan}
      {first second : Finset String} (condition_eq : operator.condition? = some condition)
      (carries : Carries links first second condition) (left_placed : Placed links tables left first)
      (right_placed : Placed links tables right second) :
      Placed links tables (.node group id operator [left, right]) (first ∪ second)

section Placed

variable {links : List Link} {tables : List GraphTable} {label : GroupId → Finset String} {memo : Memo}
  {kind : PlanKind}

/-- The plans of a mapped memo are placed. -/
theorem placed_of_isPlan (mapped : Mapped links tables label memo) : (plan : Plan) → {group : GroupId} →
    memo.IsPlan kind group plan → Placed links tables plan (label group)
  | .node home id operator children, group, ⟨_, id_mem, member⟩ => by
      rcases member with ⟨expression, stored, same, plans⟩
      rcases mapped.consistent.stored_of_mem id_mem with ⟨found, found_stored, group_eq⟩
      obtain rfl := Option.some.inj (stored.symm.trans found_stored)
      rw [← mapped.consistent.numbered stored] at stored
      have sited := mapped.sited stored
      rw [group_eq, same] at sited
      generalize expression.children = inputs at sited plans
      cases sited with
      | scan table_mem scanned_eq label_eq =>
          obtain rfl := Memo.arePlans_nil.mp plans
          rw [label_eq]
          exact .scan table_mem scanned_eq
      | join condition_eq label_eq disjoint carries =>
          rcases Memo.arePlans_pair.mp plans with ⟨left_plan, right_plan, rfl, left_isPlan, right_isPlan⟩
          rw [label_eq]
          exact .join condition_eq carries (placed_of_isPlan mapped left_plan left_isPlan)
            (placed_of_isPlan mapped right_plan right_isPlan)

variable {plan : Plan} {names : Finset String} (placed : Placed links tables plan names)
  (told_apart : (tables.map GraphTable.name).Nodup)
include placed told_apart

/-- All tables of the given names are scanned. -/
theorem Placed.mem_scans {table : GraphTable} (table_mem : table ∈ tables)
    (name_mem : table.name ∈ names) : table.reference ∈ plan.scans := by
  induction placed with
  | scan other_mem scanned_eq =>
      obtain rfl := List.inj_on_of_nodup_map told_apart table_mem other_mem
        (Finset.mem_singleton.mp name_mem)
      simp [scans, scansOf, scanned_eq]
  | join condition_eq carries left_placed right_placed left_ih right_ih =>
      rcases Finset.mem_union.mp name_mem with in_left | in_right
      · simp [scans, scansOf, left_ih in_left]
      · simp [scans, scansOf, right_ih in_right]

/-- A link between two tables of the plan is tested where the inputs with the tables are joined. -/
theorem Placed.exists_tests {left right : GraphTable} (left_mem : left ∈ tables) (right_mem : right ∈ tables)
    (apart : left ≠ right) {leftColumn rightColumn : String}
    (link_mem : ⟨left.name, leftColumn, right.name, rightColumn⟩ ∈ links)
    (left_name : left.name ∈ names) (right_name : right.name ∈ names) :
    ∃ node ∈ plan.nodes, node.Tests (.equality left.name leftColumn right.name rightColumn)
      left.reference right.reference := by
  induction placed with
  | scan table_mem scanned_eq =>
      have same : left.name = right.name :=
        (Finset.mem_singleton.mp left_name).trans (Finset.mem_singleton.mp right_name).symm
      exact (apart (List.inj_on_of_nodup_map told_apart left_mem right_mem same)).elim
  | @join group id operator condition first_plan second_plan first second condition_eq carries
      left_placed right_placed left_ih right_ih =>
      -- the link crosses between the inputs here, or both of its ends are below one of them
      have here (crosses : Link.Crosses ⟨left.name, leftColumn, right.name, rightColumn⟩ first second)
          (scanned : (left.reference ∈ first_plan.scans ∧ right.reference ∈ second_plan.scans) ∨
            (right.reference ∈ first_plan.scans ∧ left.reference ∈ second_plan.scans)) :
          ∃ node ∈ (Plan.node group id operator [first_plan, second_plan]).nodes,
            node.Tests (.equality left.name leftColumn right.name rightColumn) left.reference
              right.reference :=
        ⟨_, List.mem_cons_self, ⟨condition, condition_eq, carries _ link_mem crosses⟩, scanned⟩
      have below {child : Plan} (child_mem : child = first_plan ∨ child = second_plan)
          (found : ∃ node ∈ child.nodes, node.Tests
            (.equality left.name leftColumn right.name rightColumn) left.reference right.reference) :
          ∃ node ∈ (Plan.node group id operator [first_plan, second_plan]).nodes,
            node.Tests (.equality left.name leftColumn right.name rightColumn) left.reference
              right.reference := by
        rcases found with ⟨node, node_mem, tests⟩
        refine ⟨node, List.mem_cons_of_mem _ ?_, tests⟩
        rcases child_mem with rfl | rfl
        · simp [nodesOf, node_mem]
        · simp [nodesOf, node_mem]
      rcases Finset.mem_union.mp left_name with left_first | left_second
      · rcases Finset.mem_union.mp right_name with right_first | right_second
        · exact below (.inl rfl) (left_ih left_first right_first)
        · exact here (.inl ⟨left_first, right_second⟩)
            (.inl ⟨left_placed.mem_scans told_apart left_mem left_first,
              right_placed.mem_scans told_apart right_mem right_second⟩)
      · rcases Finset.mem_union.mp right_name with right_first | right_second
        · exact here (.inr ⟨right_first, left_second⟩)
            (.inr ⟨left_placed.mem_scans told_apart right_mem right_first,
              right_placed.mem_scans told_apart left_mem left_second⟩)
        · exact below (.inr rfl) (right_ih left_second right_second)

end Placed

end Plan

namespace JoinGraph

variable {graph : JoinGraph} {planned : PlannedGraph} {catalog : Catalog} {config : SearchConfig}
  {report : RunReport} {kind : PlanKind} {plan : Plan}

/-- The memo of a graph is made by additions only. -/
theorem arises_of_plan (plan_eq : graph.plan = .ok planned) : planned.memo.Arises := by
  rcases steps_of_plan plan_eq with
    ⟨tables, id, scan, tree, folded, -, -, -, joined_eq, rfl⟩
  have scanned {rest : List GraphTable} {before after : ScannedTables} (arises : before.memo.Arises)
      (folded : rest.foldlM ScannedTables.add before = .ok after) : after.memo.Arises := by
    induction rest generalizing before with
    | nil =>
        cases folded
        exact arises
    | cons table rest ih =>
        rw [List.foldlM_cons, ScannedTables.add] at folded
        split at folded
        · cases folded
        · split at folded
          · cases folded
          · exact ih (.add table.scan [] none arises) folded
  have joined {count : Nat} {before after : JoinTree} (arises : before.memo.Arises)
      (joined_eq : graph.joinAll tables count before = .ok after) : after.memo.Arises := by
    induction count generalizing before with
    | zero =>
        cases joined_eq
        exact arises
    | succ count ih =>
        rw [joinAll] at joined_eq
        split at joined_eq
        · cases joined_eq
          exact arises
        · simp only [join, bind, Except.bind] at joined_eq
          split at joined_eq
          · cases joined_eq
          · rename_i larger join_eq
            split at join_eq
            · cases join_eq
            · cases join_eq
              exact ih (.add _ _ _ arises) joined_eq
  exact joined (scanned .empty folded) joined_eq

/-- The plan of a rank after a default search, if everything succeeds. -/
def searchedPlan (graph : JoinGraph) (kind : PlanKind) (rank : Nat) : Option Plan :=
  graph.searched.bind fun found => PlanSpace.planAt found.2 found.1 kind rank

theorem of_searchedPlan {rank : Nat} (found : graph.searchedPlan kind rank = some plan) :
    ∃ planned report, graph.plan = .ok planned ∧
      planned.memo.search .standard planned.catalog .standard planned.root false = .ok report ∧
        report.outcome = .ok () ∧ plan ∈ report.memo.plans kind planned.root := by
  rcases Option.bind_eq_some_iff.mp found with ⟨⟨root, memo⟩, searched_eq, plan_found⟩
  rcases of_searched searched_eq with ⟨planned, report, plan_eq, search_eq, succeeded, rfl, rfl⟩
  have arises : report.memo.Arises := .runs (arises_of_plan plan_eq) (.inl ⟨false, search_eq⟩)
  exact ⟨planned, report, plan_eq, search_eq, succeeded,
    PlanSpace.isPlan_of_planAt arises.consistent plan_found⟩

/-- A search of a graph over tables with different names leaves the memo mapped. -/
theorem mapped_of_runs (plan_eq : graph.plan = .ok planned)
    (names : (graph.tables.map GraphTable.name).Nodup)
    (inner : ∀ edge ∈ graph.edges, JoinType.parse edge.joinType = .ok .inner)
    (runs : planned.memo.Runs .standard catalog config planned.root report) :
    ∃ label, label planned.root = graph.names ∧
      Mapped graph.links graph.tables label report.memo := by
  rcases plan_mapped plan_eq names inner with ⟨label, root_eq, root_lt, mapped, untouched⟩
  have start : Mapping graph.links graph.tables catalog planned.root graph.names planned.memo :=
    ⟨untouched.saturating mapped.consistent, root_lt, label, root_eq, mapped⟩
  exact (Memo.search_keeps mapping_discipline start runs).kept.mapped

/--
In a graph of inner joins over tables with different names, connected or not, every edge is evaluated by
every logical and by every physical plan that a search, successful or not, leaves for the root.
-/
theorem edges_evaluated (plan_eq : graph.plan = .ok planned)
    (names : (graph.tables.map GraphTable.name).Nodup)
    (inner : ∀ edge ∈ graph.edges, JoinType.parse edge.joinType = .ok .inner)
    (runs : planned.memo.Runs .standard catalog config planned.root report)
    (isPlan : plan ∈ report.memo.plans kind planned.root) :
    ∀ edge ∈ graph.edges, plan.Evaluates graph edge := by
  rcases accepted_of_plan plan_eq names inner with ⟨tables, accepted⟩
  rcases mapped_of_runs plan_eq names inner runs with ⟨label, root_eq, mapped⟩
  have placed := Plan.placed_of_isPlan mapped plan isPlan
  rw [root_eq] at placed
  intro edge edge_mem
  rcases accepted.ends edge edge_mem with ⟨left, right, left_found, right_found⟩
  rcases accepted.table_of_find? left_found with ⟨left_mem, left_id⟩
  rcases accepted.table_of_find? right_found with ⟨right_mem, right_id⟩
  have apart : left.table ≠ right.table := fun same =>
    accepted.apart edge edge_mem (by rw [← left_id, ← right_id, same])
  have link_mem := List.mem_filterMap.mpr ⟨edge, edge_mem, (accepted.link?_eq left_found right_found).1⟩
  refine ⟨left.table, accepted.table?_of_find? left_found, right.table,
    accepted.table?_of_find? right_found, ?_⟩
  exact placed.exists_tests names left_mem right_mem apart link_mem
    (mem_names.mpr ⟨left.table, left_mem, rfl⟩) (mem_names.mpr ⟨right.table, right_mem, rfl⟩)

/-- A plan of the chain of three tables evaluates both edges. -/
theorem edges_evaluated_chain : ∃ planned report plan, chain.plan = .ok planned ∧
    planned.memo.search .standard planned.catalog .standard planned.root false = .ok report ∧
      report.outcome = .ok () ∧ plan ∈ report.memo.plans .logical planned.root ∧
        ∀ edge ∈ chain.edges, plan.Evaluates chain edge := by
  rcases chain_searched with ⟨root, memo, plan, searched_eq, -, plan_eq⟩
  have plan_found : chain.searchedPlan .logical 4 = some plan := by
    rw [searchedPlan, searched_eq]
    exact plan_eq
  rcases of_searchedPlan plan_found with ⟨planned, report, plan_eq, search_eq, succeeded, isPlan⟩
  exact ⟨planned, report, plan, plan_eq, search_eq, succeeded, isPlan,
    edges_evaluated plan_eq (by decide) (by decide) (.inl ⟨false, search_eq⟩) isPlan⟩

/-- Two of the three tables share a name. -/
def homonyms : JoinGraph :=
  ⟨[⟨"a1", "s1", "a", ["x", "w"]⟩, ⟨"a2", "s2", "a", ["z"]⟩, ⟨"b", "s1", "b", ["y"]⟩],
    [⟨"a1", "a2", "INNER", "w", "z"⟩, ⟨"a1", "b", "INNER", "x", "y"⟩], none⟩

/-- A plan of a default search that does not evaluate all edges. -/
def misplacing :=
  tested (homonyms.searchedPlan .logical 4) (fun plan =>
    decide (∃ edge ∈ homonyms.edges, ¬ plan.Evaluates homonyms edge)) (by decide +kernel)

/-- The join of the second table with the third one takes the edge between the first and the third. -/
theorem edge_misplaced : ∃ planned report plan, homonyms.plan = .ok planned ∧
    (∀ edge ∈ homonyms.edges, JoinType.parse edge.joinType = .ok .inner) ∧
      planned.memo.search .standard planned.catalog .standard planned.root false = .ok report ∧
        report.outcome = .ok () ∧ plan ∈ report.memo.plans .logical planned.root ∧
          ∃ edge ∈ homonyms.edges, ¬ plan.Evaluates homonyms edge := by
  rcases misplacing with ⟨plan, plan_found, misplaced⟩
  rcases of_searchedPlan plan_found with ⟨planned, report, plan_eq, search_eq, succeeded, isPlan⟩
  exact ⟨planned, report, plan, plan_eq, by decide, search_eq, succeeded, isPlan,
    of_decide_eq_true misplaced⟩

end JoinGraph

end Cascades
