import Cascades.Proofs.JoinGraph.Building

/-!
# The left-deep tree of a join graph

Over tables of different names, the tables below a group of a chain are known by their names, and the
condition of a join consists of the equalities of all links between its inputs. In a connected graph
of inner joins there is such a link at every join: the memo holds, behind the scans, one inner join
after the other, each with the join before it on its left and the scan of a new table on its right.
The root joins all tables.
-/

namespace Cascades

/-- A memo of scans and of a left-deep tree of joins, with the set of tables below each group. -/
structure LeftDeep (links : List Link) (tables : List GraphTable) (label : GroupId → Finset String)
    (first : Nat) (memo : Memo) : Prop where
  discrete : memo.Discrete
  first_lt : first < tables.length
  enough : tables.length ≤ memo.groups.size
  scan : ∀ {position : Nat} {table}, tables[position]? = some table →
    memo.expression? position = some ⟨position, position, table.scan, [], none, .empty⟩ ∧
      label position = {table.name}
  join : ∀ {group : Nat}, tables.length ≤ group → group < memo.groups.size →
    ∃ right : Nat, right < tables.length ∧
    memo.expression? group = some ⟨group, group,
        joinAcross links (label (leftOf tables.length first group)) (label right),
        [leftOf tables.length first group, right], none, .empty⟩ ∧
      label group = label (leftOf tables.length first group) ∪ label right ∧
        Disjoint (label (leftOf tables.length first group)) (label right) ∧
          Touch links (label (leftOf tables.length first group)) (label right)

theorem LeftDeep.leftOf_lt {links : List Link} {tables : List GraphTable}
    {label : GroupId → Finset String} {first : Nat} {memo : Memo}
    (deep : LeftDeep links tables label first memo) {group : Nat} (from_ : tables.length ≤ group) :
    leftOf tables.length first group < group :=
  Cascades.leftOf_lt deep.first_lt from_

/-- The left-deep tree over all tables, with its root. -/
structure PlannedGraph.IsLeftDeep (planned : PlannedGraph) (graph : JoinGraph)
    (label : GroupId → Finset String) (first : Nat) : Prop where
  deep : LeftDeep graph.links graph.tables label first planned.memo
  root_eq : planned.root = leftOf graph.tables.length first planned.memo.groups.size
  label_root : label planned.root = graph.names

/-! ## Tables of different names -/

/-- A surveyed graph of inner joins between tables of different names. -/
structure Accepted (graph : JoinGraph) (tables : ScannedTables) : Prop
    extends Surveyed graph tables where
  names : (graph.tables.map GraphTable.name).Nodup
  inner : ∀ edge ∈ graph.edges, JoinType.parse edge.joinType = .ok .inner

theorem accepted_of_plan {graph : JoinGraph} {planned : PlannedGraph}
    (plan_eq : graph.plan = .ok planned) (names : (graph.tables.map GraphTable.name).Nodup)
    (inner : ∀ edge ∈ graph.edges, JoinType.parse edge.joinType = .ok .inner) :
    ∃ tables, Accepted graph tables := by
  rcases steps_of_plan plan_eq with ⟨tables, -, -, -, -, surveyed, -⟩
  exact ⟨tables, surveyed, names, inner⟩

/-- The names of some tables. -/
def namesOf (tables : List GraphTable) : Finset String :=
  (tables.map GraphTable.name).toFinset

namespace Accepted

variable {graph : JoinGraph} {tables : ScannedTables} (accepted : Accepted graph tables)
include accepted

section Part

variable {part : List GraphTable} (known : part ⊆ graph.tables) {table : GraphTable}
  (table_mem : table ∈ graph.tables)
include known table_mem

theorem mem_namesOf_iff : table.name ∈ namesOf part ↔ table ∈ part := by
  rw [namesOf, List.mem_toFinset, List.mem_map]
  constructor
  · rintro ⟨other, other_mem, same⟩
    rwa [← List.inj_on_of_nodup_map accepted.names (known other_mem) table_mem same]
  · exact fun listed => ⟨table, listed, rfl⟩

theorem mem_ids_iff : table.id ∈ part.map GraphTable.id ↔ table ∈ part := by
  rw [List.mem_map]
  constructor
  · rintro ⟨other, other_mem, same⟩
    rwa [← accepted.table_eq_of_id (known other_mem) table_mem same]
  · exact fun listed => ⟨table, listed, rfl⟩

/-- The edges that connect a table with others are those whose links cross between them. -/
theorem connects_iff {edge : GraphEdge} (edge_mem : edge ∈ graph.edges) :
    ∃ link, graph.link? edge = some link ∧
      (edge.connects table.id (part.map GraphTable.id) = true ↔
        link.Crosses (namesOf part) (namesOf [table])) := by
  rcases accepted.ends edge edge_mem with ⟨left, right, left_found, right_found⟩
  rcases accepted.table_of_find? left_found with ⟨left_mem, left_id⟩
  rcases accepted.table_of_find? right_found with ⟨right_mem, right_id⟩
  refine ⟨_, (accepted.link?_eq left_found right_found).1, ?_⟩
  have only : [table] ⊆ graph.tables := by simpa using table_mem
  have same_iff {other : GraphTable} (other_mem : other ∈ graph.tables) :
      other.id = table.id ↔ other ∈ [table] := by
    rw [← accepted.mem_ids_iff only other_mem, List.map_singleton, List.mem_singleton]
  rw [GraphEdge.connects_iff, Link.Crosses, ← left_id, ← right_id, same_iff left_mem,
    same_iff right_mem, accepted.mem_ids_iff known left_mem, accepted.mem_ids_iff known right_mem,
    accepted.mem_namesOf_iff known left_mem, accepted.mem_namesOf_iff known right_mem,
    accepted.mem_namesOf_iff only left_mem, accepted.mem_namesOf_iff only right_mem]
  tauto

/-- The edges between a table and others stand for the links between them. -/
theorem equalities_eq : graph.equalities (graph.edgesTo table.id (part.map GraphTable.id)) =
    crossing graph.links (namesOf part) (namesOf [table]) := by
  rw [JoinGraph.equalities, JoinGraph.edgesTo, List.filterMap_filter, crossing, JoinGraph.links,
    List.filter_filterMap, List.map_filterMap]
  refine List.filterMap_congr fun edge edge_mem => ?_
  rcases accepted.connects_iff known table_mem edge_mem with ⟨link, link_eq, crosses_iff⟩
  rw [link_eq]
  by_cases crosses : link.Crosses (namesOf part) (namesOf [table])
  · simp [crosses, crosses_iff]
  · simp [crosses, crosses_iff]

end Part

/-- A join along an edge is an inner one. -/
theorem inner_of_joins {joined : List String} {next : String} {type : JoinType} {condition : Scalar}
    (joins : graph.Joins joined next type condition) (some_edge : graph.edgesTo next joined ≠ []) :
    type = .inner := by
  rcases List.exists_mem_of_ne_nil _ some_edge with ⟨edge, edge_mem⟩
  have type_eq := joins.type_eq edge edge_mem
  rw [GraphEdge.typeFrom?, parse_ok_iff.mp (accepted.inner edge (List.mem_of_mem_filter edge_mem)),
    Option.bind_some] at type_eq
  split at type_eq
  · exact (Option.some.inj type_eq).symm
  · exact (Option.some.inj type_eq).symm

/-- In a connected graph every join that does not start from all tables is along an edge. -/
theorem edgesTo_ne_nil (connected : graph.Connected) {part : List GraphTable}
    (known : part ⊆ graph.tables) (started : part ≠ []) {table : GraphTable}
    (table_mem : table ∈ graph.tables) (unjoined : table ∉ part) {type : JoinType}
    {condition : Scalar} (joins : graph.Joins (part.map GraphTable.id) table.id type condition) :
    graph.edgesTo table.id (part.map GraphTable.id) ≠ [] := by
  intro none
  have apart := joins.apart (joins.cross none).2
  have proper : namesOf part ⊂ graph.names := by
    refine Finset.ssubset_iff_of_subset ?_ |>.mpr ⟨table.name, ?_, ?_⟩
    · intro name name_mem
      exact List.mem_toFinset.mpr (List.map_subset _ known (List.mem_toFinset.mp name_mem))
    · exact JoinGraph.mem_names.mpr ⟨table, table_mem, rfl⟩
    · exact mt (accepted.mem_namesOf_iff known table_mem).mp unjoined
  have nonempty : (namesOf part).Nonempty := by
    rcases List.exists_mem_of_ne_nil part started with ⟨first, first_mem⟩
    exact ⟨first.name, (accepted.mem_namesOf_iff known (known first_mem)).mpr first_mem⟩
  rcases connected.linked _ proper nonempty with ⟨link, link_mem, crosses⟩
  rcases List.mem_filterMap.mp link_mem with ⟨edge, edge_mem, link_eq⟩
  rcases accepted.ends edge edge_mem with ⟨left, right, left_found, right_found⟩
  rcases accepted.table_of_find? left_found with ⟨left_mem, left_id⟩
  rcases accepted.table_of_find? right_found with ⟨right_mem, right_id⟩
  rw [(accepted.link?_eq left_found right_found).1] at link_eq
  cases link_eq
  have both := apart edge edge_mem
  rw [← left_id, ← right_id, accepted.mem_ids_iff known left_mem,
    accepted.mem_ids_iff known right_mem] at both
  rw [Link.Crosses, Finset.mem_sdiff, Finset.mem_sdiff, accepted.mem_namesOf_iff known left_mem,
    accepted.mem_namesOf_iff known right_mem] at crosses
  tauto

end Accepted

/-! ## Labels of a chain -/

/-- The names of the tables below each group of a chain. -/
def chainLabel (tables order : List GraphTable) (group : GroupId) : Finset String :=
  match tables[group]? with
  | some table => namesOf [table]
  | none => namesOf (order.take (group + 2 - tables.length))

section Labels

variable {graph : JoinGraph} {order : List GraphTable}

theorem chainLabel_scan {position : Nat} {table : GraphTable}
    (found : graph.tables[position]? = some table) :
    chainLabel graph.tables order position = namesOf [table] := by
  rw [chainLabel, found]

theorem chainLabel_join (step : Nat) :
    chainLabel graph.tables order (graph.tables.length + step) = namesOf (order.take (step + 2)) := by
  have position_eq : graph.tables.length + step + 2 - graph.tables.length = step + 2 := by omega
  rw [chainLabel, List.getElem?_eq_none (Nat.le_add_right _ _), position_eq]

end Labels

namespace PlannedGraph.IsChain

variable {graph : JoinGraph} {tables : ScannedTables} {planned : PlannedGraph}
  {order : List GraphTable} {first : Nat} (chain : planned.IsChain graph order first)
include chain

/-- What is on the left of a join of the chain, or what the chain ends with. -/
theorem label_leftOf {step : Nat} (step_lt : step < order.length) :
    chainLabel graph.tables order
        (leftOf graph.tables.length first (graph.tables.length + step)) =
      namesOf (order.take (step + 1)) := by
  cases step with
  | zero =>
      rcases List.exists_cons_of_ne_nil chain.started with ⟨table, others, order_eq⟩
      have found := chain.head_eq
      rw [order_eq] at found
      rw [leftOf, if_pos (Nat.add_zero _), chainLabel_scan found, order_eq]
      rfl
  | succ step =>
      have left_eq : leftOf graph.tables.length first (graph.tables.length + (step + 1)) =
          graph.tables.length + step := by
        rw [leftOf, if_neg (by omega)]
        omega
      rw [left_eq, chainLabel_join]

theorem label_root : chainLabel graph.tables order planned.root = graph.names := by
  have size := chain.size
  have positive := chain.length_pos
  have size_eq : planned.memo.groups.size = graph.tables.length + (order.length - 1) := by omega
  have length_eq : order.length - 1 + 1 = order.length := Nat.sub_add_cancel positive
  rw [chain.root_eq, size_eq, chain.label_leftOf (by omega), length_eq, List.take_length,
    namesOf, JoinGraph.names, List.toFinset_eq_of_perm _ _ (chain.perm.map _)]

theorem take_subset (count : Nat) : order.take count ⊆ graph.tables :=
  fun _ taken => chain.perm.subset (List.mem_of_mem_take taken)

variable (accepted : Accepted graph tables) {step : Nat} {table : GraphTable}
  (found : order[step + 1]? = some table)
include accepted found

/-- A table that is joined is none of those before it. -/
theorem notMem_take : table ∉ order.take (step + 1) := by
  have nodup : order.Nodup := chain.perm.nodup_iff.mpr (.of_map _ accepted.scanned.ids)
  have table_mem := List.mem_of_getElem? found
  rw [List.mem_take_iff_idxOf_lt table_mem, ← (getElem?_eq_some_iff_idxOf nodup table_mem).mp found]
  exact Nat.lt_irrefl _

/-- A join of the chain adds its table, and its edges stand for the links between its inputs. -/
theorem label_inputs {right : Nat} (right_eq : graph.tables[right]? = some table) :
    let left := leftOf graph.tables.length first (graph.tables.length + step)
    chainLabel graph.tables order (graph.tables.length + step) =
        chainLabel graph.tables order left ∪ chainLabel graph.tables order right ∧
      Disjoint (chainLabel graph.tables order left) (chainLabel graph.tables order right) ∧
        graph.equalities
            (graph.edgesTo table.id ((order.take (step + 1)).map GraphTable.id)) =
          crossing graph.links (chainLabel graph.tables order left)
            (chainLabel graph.tables order right) := by
  intro left
  have known := chain.take_subset (step + 1)
  have table_mem := List.mem_of_getElem? right_eq
  have step_lt := (List.getElem?_eq_some_iff.mp found).1
  have left_eq : chainLabel graph.tables order left = namesOf (order.take (step + 1)) :=
    chain.label_leftOf (by omega)
  rw [left_eq, chainLabel_scan right_eq, chainLabel_join]
  refine ⟨?_, ?_, accepted.equalities_eq known table_mem⟩
  · rw [List.take_add_one, found, namesOf, List.map_append, List.toFinset_append]
    rfl
  · have unnamed := mt (accepted.mem_namesOf_iff known table_mem).mp
      (chain.notMem_take accepted found)
    simpa [namesOf] using unnamed

end PlannedGraph.IsChain

/-- An accepted connected graph of inner joins is planned as a left-deep tree over all tables. -/
theorem plan_isLeftDeep {graph : JoinGraph} {planned : PlannedGraph}
    (plan_eq : graph.plan = .ok planned) (names : (graph.tables.map GraphTable.name).Nodup)
    (inner : ∀ edge ∈ graph.edges, JoinType.parse edge.joinType = .ok .inner)
    (connected : graph.Connected) : ∃ label first, planned.IsLeftDeep graph label first := by
  rcases accepted_of_plan plan_eq names inner with ⟨tables, accepted⟩
  rcases exists_chain plan_eq with ⟨order, first, chain⟩
  refine ⟨chainLabel graph.tables order, first, ⟨chain.discrete, chain.first_lt, chain.enough, ?_, ?_⟩,
    chain.root_eq, chain.label_root⟩
  · intro position table found
    exact ⟨chain.scan found, (chainLabel_scan found).trans (by simp [namesOf])⟩
  · intro group from_ bounded
    rcases chain.exists_step from_ bounded with ⟨step, table, rfl, found⟩
    rcases chain.join found with ⟨right, type, condition, right_eq, stored, joins⟩
    rcases chain.label_inputs accepted found right_eq with ⟨label_eq, disjoint, equalities_eq⟩
    have some_edge := accepted.edgesTo_ne_nil connected (chain.take_subset (step + 1))
      (by simp [chain.started]) (List.mem_of_getElem? right_eq) (chain.notMem_take accepted found)
      joins
    have touch := crossing_ne_nil.mp (equalities_eq ▸
      mt (accepted.equalities_eq_nil_iff (List.filter_subset_self _)).mp some_edge)
    refine ⟨right, (List.getElem?_eq_some_iff.mp right_eq).1, ?_, label_eq, disjoint, touch⟩
    rw [stored, accepted.inner_of_joins joins some_edge, joins.condition_eq, equalities_eq]
    rfl

end Cascades
