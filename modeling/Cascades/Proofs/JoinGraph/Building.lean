import Cascades.Proofs.JoinGraph.Carried
import Cascades.Proofs.JoinGraph.Surveys

/-!
# An accepted join graph becomes a chain of joins

Whatever the types of its edges are and however it is connected, a graph that is not turned down is
planned as one chain: every join has the chain before it on its left and the scan of one more table
on its right, and is the only expression of its group. Its conjuncts are the equalities of the edges
between the two, and so every edge is used at the join of its later end.
-/

namespace Cascades

/-! ## A single join -/

/-- Edges have a common type if the type from each of them is the one found so far. -/
theorem JoinGraph.commonType_ok_iff {next : String} {edges : List GraphEdge}
    {chosen result : Option JoinType} :
    commonType next chosen edges = .ok result ↔
      (∀ edge ∈ edges, ∃ type, edge.typeFrom? next = some type ∧ result = some type) ∧
        (chosen ≠ none ∨ edges = [] → result = chosen) := by
  induction edges generalizing chosen with
  | nil => simp [commonType, eq_comm]
  | cons edge rest ih =>
      rw [commonType]
      cases type_eq : edge.typeFor next with
      | error failure =>
          have untyped (type : JoinType) : edge.typeFrom? next ≠ some type := by
            rw [ne_eq, ← typeFor_ok_iff, type_eq]
            simp
          simp [bind, Except.bind, untyped]
      | ok type =>
          rw [typeFor_ok_iff] at type_eq
          simp only [bind, Except.bind]
          cases chosen with
          | none =>
              dsimp only
              rw [ih]
              simp [type_eq]
              tauto
          | some existing =>
              by_cases same : existing = type
              · dsimp only
                rw [if_pos same, ih, same]
                simp [type_eq]
                tauto
              · have different : ¬ (result = some type ∧ result = some existing) := by
                  rintro ⟨rfl, equal⟩
                  exact same (Option.some.inj equal).symm
                simp [same, type_eq, throw, throwThe, MonadExceptOf.throw]
                tauto

namespace JoinGraph

/-- The equalities that edges stand for. -/
def equalities (graph : JoinGraph) (edges : List GraphEdge) : List Scalar :=
  edges.filterMap fun edge => (graph.link? edge).map Link.equality

/-- What holds of the join that adds a table to a tree over some others. -/
structure Joins (graph : JoinGraph) (joined : List String) (next : String) (type : JoinType)
    (condition : Scalar) : Prop where
  type_eq : ∀ edge ∈ graph.edgesTo next joined, edge.typeFrom? next = some type
  condition_eq : condition = .canonicalConjunction (graph.equalities (graph.edgesTo next joined))
  conjuncts : graph.edgesTo next joined ≠ [] → ∀ scalar, scalar ∈ condition.conjuncts ↔
    scalar ∈ graph.equalities (graph.edgesTo next joined)
  cross : graph.edgesTo next joined = [] → type = .cross ∧ condition = .truth
  apart : condition = .truth → ∀ edge ∈ graph.edges,
    edge.leftTable ∈ joined ↔ edge.rightTable ∈ joined

section Equalities

variable {graph : JoinGraph} {edges : List GraphEdge} {scalar : Scalar}

theorem exists_link_of_mem (scalar_mem : scalar ∈ graph.equalities edges) :
    ∃ link : Link, link.equality = scalar := by
  rcases List.mem_filterMap.mp scalar_mem with ⟨edge, -, equality_eq⟩
  rcases Option.map_eq_some_iff.mp equality_eq with ⟨link, -, rfl⟩
  exact ⟨link, rfl⟩

theorem conjuncts_of_mem_equalities (scalar_mem : scalar ∈ graph.equalities edges) :
    scalar.conjuncts = [scalar] := by
  rcases exists_link_of_mem scalar_mem with ⟨link, rfl⟩
  rfl

/-- Equalities keep their place among the conjuncts when these are put in order. -/
theorem mem_conjuncts_iff (nonempty : graph.equalities edges ≠ []) :
    scalar ∈ (Scalar.canonicalConjunction (graph.equalities edges)).conjuncts ↔
      scalar ∈ graph.equalities edges := by
  constructor
  · intro conjunct
    rw [Scalar.conjuncts_canonicalConjunction fun _ => conjuncts_of_mem_equalities,
      if_neg nonempty] at conjunct
    exact Scalar.mem_of_mem_ordered conjunct
  · intro scalar_mem
    rcases exists_link_of_mem scalar_mem with ⟨link, rfl⟩
    exact Link.mem_canonicalConjunction (fun _ => conjuncts_of_mem_equalities) scalar_mem

theorem Joins.canonical {joined : List String} {next : String} {type : JoinType}
    {condition : Scalar} (joins : graph.Joins joined next type condition) :
    condition.canonical = condition := by
  rw [joins.condition_eq]
  exact Scalar.canonical_canonicalConjunction fun _ => conjuncts_of_mem_equalities

end Equalities

end JoinGraph

namespace GraphEdge

variable {edge : GraphEdge} {joined : List String} {next : String}

theorem connects_iff : edge.connects next joined = true ↔
    (edge.leftTable = next ∧ edge.rightTable ∈ joined) ∨
      (edge.rightTable = next ∧ edge.leftTable ∈ joined) := by
  simp [connects]

theorem connects_of_outside (outside : edge.outside? joined = some next) :
    edge.connects next joined = true := by
  rw [outside?] at outside
  rw [connects_iff]
  split at outside
  · rename_i left_in _
    cases outside
    exact .inr ⟨rfl, by simpa using left_in⟩
  · rename_i _ right_in
    cases outside
    exact .inl ⟨rfl, by simpa using right_in⟩
  · cases outside

theorem mem_iff_of_outside (inside : edge.outside? joined = none) :
    edge.leftTable ∈ joined ↔ edge.rightTable ∈ joined := by
  rw [outside?] at inside
  rw [← List.contains_iff_mem, ← List.contains_iff_mem]
  cases left_in : joined.contains edge.leftTable <;>
    cases right_in : joined.contains edge.rightTable <;> simp_all

end GraphEdge

/-- A table that no edge connects with a tree comes next only if no edge leaves the tree. -/
theorem JoinGraph.mem_iff_of_edgesTo_eq_nil {graph : JoinGraph} {joined : List String}
    {next : String} (next_eq : graph.next? joined = some next)
    (none : graph.edgesTo next joined = []) {edge : GraphEdge} (edge_mem : edge ∈ graph.edges) :
    edge.leftTable ∈ joined ↔ edge.rightTable ∈ joined := by
  refine GraphEdge.mem_iff_of_outside ?_
  cases leaving : graph.edges.findSome? fun edge => edge.outside? joined with
  | none => exact List.findSome?_eq_none_iff.mp leaving edge edge_mem
  | some id =>
      rw [next?, leaving] at next_eq
      cases next_eq
      rcases List.exists_of_findSome?_eq_some leaving with ⟨other, other_mem, outside⟩
      have connected : other ∈ graph.edgesTo next joined :=
        List.mem_filter.mpr ⟨other_mem, GraphEdge.connects_of_outside outside⟩
      rw [none] at connected
      cases connected

namespace Surveyed

variable {graph : JoinGraph} {tables : ScannedTables} (surveyed : Surveyed graph tables)
  {joined : List String} {next : String}
include surveyed

/-- Every edge stands for an equality. -/
theorem equalities_eq_nil_iff {edges : List GraphEdge} (subset : edges ⊆ graph.edges) :
    graph.equalities edges = [] ↔ edges = [] := by
  rw [JoinGraph.equalities, List.filterMap_eq_nil_iff]
  constructor
  · intro none
    by_contra nonempty
    rcases List.exists_mem_of_ne_nil edges nonempty with ⟨edge, edge_mem⟩
    rcases surveyed.ends edge (subset edge_mem) with ⟨left, right, left_found, right_found⟩
    have equality_eq := none edge edge_mem
    rw [(surveyed.link?_eq left_found right_found).1] at equality_eq
    cases equality_eq
  · rintro rfl edge edge_mem
    cases edge_mem

theorem conditionOf_eq {edges : List GraphEdge} (subset : edges ⊆ graph.edges) :
    JoinGraph.conditionOf tables edges = .canonicalConjunction (graph.equalities edges) := by
  have conditions_eq : (edges.filterMap fun edge => edge.condition? tables) =
      graph.equalities edges := by
    refine List.filterMap_congr fun edge edge_mem => ?_
    rcases surveyed.ends edge (subset edge_mem) with ⟨left, right, left_found, right_found⟩
    rcases surveyed.link?_eq left_found right_found with ⟨link_eq, condition_eq⟩
    rw [link_eq, condition_eq]
    rfl
  rw [JoinGraph.conditionOf, conditions_eq]
  split
  · rename_i none
    rw [List.isEmpty_iff.mp none]
    rfl
  · rfl

/-- The join of the next table, if the edges to it have a common type. -/
theorem joins (next_eq : graph.next? joined = some next) {type : Option JoinType}
    (type_eq : JoinGraph.commonType next none (graph.edgesTo next joined) = .ok type) :
    graph.Joins joined next (type.getD .cross)
      (JoinGraph.conditionOf tables (graph.edgesTo next joined)) := by
  have subset : graph.edgesTo next joined ⊆ graph.edges := List.filter_subset_self _
  have conjuncts (nonempty : graph.edgesTo next joined ≠ []) (scalar : Scalar) :=
    @JoinGraph.mem_conjuncts_iff graph (graph.edgesTo next joined) scalar
      (mt (surveyed.equalities_eq_nil_iff subset).mp nonempty)
  rcases JoinGraph.commonType_ok_iff.mp type_eq with ⟨typed, untyped⟩
  rw [surveyed.conditionOf_eq subset]
  refine ⟨?_, rfl, conjuncts, ?_, ?_⟩
  · intro edge edge_mem
    rcases typed edge edge_mem with ⟨found, found_eq, rfl⟩
    exact found_eq
  · intro none
    rw [untyped (.inr none), none]
    exact ⟨rfl, rfl⟩
  · intro truth_eq edge edge_mem
    refine JoinGraph.mem_iff_of_edgesTo_eq_nil next_eq ?_ edge_mem
    by_contra nonempty
    have some_equality := mt (surveyed.equalities_eq_nil_iff subset).mp nonempty
    rcases List.exists_mem_of_ne_nil _ some_equality with ⟨equality, equality_mem⟩
    have conjunct := (conjuncts nonempty equality).mpr equality_mem
    rcases JoinGraph.exists_link_of_mem equality_mem with ⟨link, rfl⟩
    rw [truth_eq] at conjunct
    cases List.mem_singleton.mp conjunct

end Surveyed

/-! ## The chain -/

/-- The left input of a join of the chain: the first table, or the join before. -/
def leftOf (count first group : Nat) : Nat :=
  if group = count then first else group - 1

theorem leftOf_injective {count first group other : Nat} (first_lt : first < count)
    (from_ : count ≤ group) (other_from : count ≤ other)
    (same : leftOf count first group = leftOf count first other) : group = other := by
  rw [leftOf, leftOf] at same
  split at same <;> split at same <;> omega

theorem leftOf_lt {count first group : Nat} (first_lt : first < count) (from_ : count ≤ group) :
    leftOf count first group < group := by
  rw [leftOf]
  split <;> omega

/-- A memo of the scans of all tables, and of a chain of joins over the tables of an order. -/
structure Chained (graph : JoinGraph) (order : List GraphTable) (first : Nat) (memo : Memo) :
    Prop where
  discrete : memo.Discrete
  size : memo.groups.size + 1 = graph.tables.length + order.length
  scan : ∀ {position : Nat} {table}, graph.tables[position]? = some table →
    memo.expression? position = some ⟨position, position, table.scan, [], none, .empty⟩
  head_eq : graph.tables[first]? = order.head?
  started : order ≠ []
  join : ∀ {step : Nat} {table}, order[step + 1]? = some table →
    ∃ (right : Nat) (type : JoinType) (condition : Scalar),
      graph.tables[right]? = some table ∧
        memo.expression? (graph.tables.length + step) =
          some ⟨graph.tables.length + step, graph.tables.length + step,
            .logical (.join type condition),
            [leftOf graph.tables.length first (graph.tables.length + step), right], none, .empty⟩ ∧
          graph.Joins ((order.take (step + 1)).map GraphTable.id) table.id type condition

namespace Chained

variable {graph : JoinGraph} {order : List GraphTable} {first : Nat} {memo : Memo}
  (chained : Chained graph order first memo)
include chained

theorem length_pos : 0 < order.length :=
  List.length_pos_iff.mpr chained.started

theorem first_lt : first < graph.tables.length := by
  rcases List.exists_cons_of_ne_nil chained.started with ⟨table, others, order_eq⟩
  have found := chained.head_eq
  rw [order_eq] at found
  exact (List.getElem?_eq_some_iff.mp found).1

theorem enough : graph.tables.length ≤ memo.groups.size := by
  have size := chained.size
  have positive := chained.length_pos
  omega

/-- Behind the scans there is a group for every table but the first. -/
theorem exists_step {group : Nat} (from_ : graph.tables.length ≤ group)
    (bounded : group < memo.groups.size) :
    ∃ step table, group = graph.tables.length + step ∧ order[step + 1]? = some table := by
  rcases Nat.exists_eq_add_of_le from_ with ⟨step, rfl⟩
  have size := chained.size
  exact ⟨step, _, rfl, List.getElem?_eq_getElem (by omega)⟩

theorem lefts {id : ExprId} {expression : Expression}
    (found : memo.expression? id = some expression) : expression.children = [] ∨
      graph.tables.length ≤ id ∧ ∃ right : GroupId,
        expression.children = [leftOf graph.tables.length first id, right] := by
  have bounded : (id : Nat) < memo.groups.size := chained.discrete.expression?_lt found
  rcases Nat.lt_or_ge id graph.tables.length with scan | join
  · have known := chained.scan (List.getElem?_eq_getElem scan)
    rw [found] at known
    exact .inl (congrArg Expression.children (Option.some.inj known))
  · rcases chained.exists_step join bounded with ⟨step, table, rfl, table_eq⟩
    rcases chained.join table_eq with ⟨right, _, _, _, known, _⟩
    rw [found] at known
    exact .inr ⟨join, right, congrArg Expression.children (Option.some.inj known)⟩

/-- A join with the whole chain on its left is new. -/
theorem find?_eq_none (operator : Operator) (right : GroupId) :
    memo.find? operator [leftOf graph.tables.length first memo.groups.size, right] = none := by
  refine Memo.Discrete.find?_eq_none ?_
  intro id expression found children_eq _
  have bounded : (id : Nat) < memo.groups.size := chained.discrete.expression?_lt found
  rcases chained.lefts found with none | ⟨from_, other, known⟩
  · rw [none] at children_eq
    cases children_eq
  · rw [known] at children_eq
    have left_eq := (List.cons.inj children_eq).1
    exact Nat.ne_of_lt bounded (leftOf_injective chained.first_lt from_ chained.enough left_eq)

/-- The next join of the chain. -/
theorem extend {table : GraphTable} {right : Nat} (table_eq : graph.tables[right]? = some table)
    {type : JoinType} {condition : Scalar}
    (joins : graph.Joins (order.map GraphTable.id) table.id type condition) :
    ∃ larger, memo.add (.logical (.join type condition))
        [leftOf graph.tables.length first memo.groups.size, right] none =
          (larger, memo.groups.size, memo.groups.size) ∧
      Chained graph (order ++ [table]) first larger := by
  have right_lt := (List.getElem?_eq_some_iff.mp table_eq).1
  have enough := chained.enough
  have left_lt := leftOf_lt chained.first_lt enough
  have exist : ∀ child ∈ [leftOf graph.tables.length first memo.groups.size, right],
      child < memo.groups.size := by
    simpa using ⟨left_lt, Nat.lt_of_lt_of_le right_lt enough⟩
  have operator_canonical : (Operator.logical (.join type condition)).canonical =
      .logical (.join type condition) := by
    rw [Operator.canonical, LogicalOperator.canonical, joins.canonical]
  rcases chained.discrete.add rfl operator_canonical exist (chained.find?_eq_none _ right) with
    ⟨larger, add_eq, added⟩
  have size := chained.size
  have positive := chained.length_pos
  refine ⟨larger, add_eq, added.discrete, ?_, ?_, ?_, by simp, ?_⟩
  · rw [added.size, List.length_append, List.length_singleton]
    omega
  · intro position other found
    have position_lt := (List.getElem?_eq_some_iff.mp found).1
    rw [added.expression, if_neg (Nat.ne_of_lt (Nat.lt_of_lt_of_le position_lt enough))]
    exact chained.scan found
  · rw [chained.head_eq, List.head?_append_of_ne_nil _ chained.started]
  · intro step other found
    rw [added.expression]
    rcases Nat.lt_or_ge (step + 1) order.length with before | after
    · have group_lt : graph.tables.length + step < memo.groups.size := by omega
      rw [List.getElem?_append_left before] at found
      rw [if_neg (Nat.ne_of_lt group_lt), List.take_append_of_le_length (Nat.le_of_lt before)]
      exact chained.join found
    · rw [List.getElem?_append_right after, List.getElem?_singleton] at found
      split at found
      · rename_i last
        cases found
        have length_eq : step + 1 = order.length := by omega
        have group_eq : graph.tables.length + step = memo.groups.size := by omega
        rw [if_pos group_eq, group_eq, length_eq, List.take_left]
        exact ⟨right, type, condition, table_eq, rfl, joins⟩
      · cases found

end Chained

/-- A tree that is a chain over some different tables of a graph. -/
structure Growing (graph : JoinGraph) (order : List GraphTable) (first : Nat) (tree : JoinTree) :
    Prop where
  chained : Chained graph order first tree.memo
  root_eq : tree.root = leftOf graph.tables.length first tree.memo.groups.size
  joined_eq : tree.joined = order.map GraphTable.id
  nodup : (order.map GraphTable.id).Nodup
  known : order ⊆ graph.tables

namespace Growing

variable {graph : JoinGraph} {tables : ScannedTables} {order : List GraphTable} {first : Nat}
  {tree : JoinTree}

/-- The chain of a single table. -/
theorem start (surveyed : Surveyed graph tables) {id : String} {scan : ScannedTable}
    (found : tables.find? id = some scan) :
    Growing graph [scan.table] scan.group ⟨tables.memo, scan.group, [id]⟩ := by
  have position := (surveyed.scanned.position_of_find? found).1
  rcases surveyed.table_of_find? found with ⟨table_mem, rfl⟩
  have size_eq := surveyed.scanned.size
  refine ⟨⟨surveyed.scanned.discrete, by simp [size_eq], surveyed.scanned.expression, position,
    by simp, ?_⟩, ?_, rfl, by simp, by simpa using table_mem⟩
  · intro step table found
    simp at found
  · rw [leftOf, if_pos size_eq]

variable (growing : Growing graph order first tree)
include growing

theorem order_nodup : order.Nodup :=
  growing.nodup.of_map _

/-- A chain without some table has fewer tables than the graph. -/
theorem length_lt {table : GraphTable} (table_mem : table ∈ graph.tables)
    (unjoined : table.id ∉ tree.joined) : order.length < graph.tables.length := by
  have fresh : table ∉ order := fun listed => unjoined (by
    rw [growing.joined_eq]
    exact List.mem_map_of_mem listed)
  have subset : table :: order ⊆ graph.tables := List.cons_subset.mpr ⟨table_mem, growing.known⟩
  exact (List.subperm_of_subset (List.nodup_cons.mpr ⟨fresh, growing.order_nodup⟩) subset).length_le

/-- A chain that is long enough has every table once. -/
theorem perm (enough : graph.tables.length ≤ order.length) : order.Perm graph.tables :=
  (List.subperm_of_subset growing.order_nodup growing.known).perm_of_length_le enough

variable (surveyed : Surveyed graph tables) {scan : ScannedTable}
  (next_eq : graph.next? tree.joined = some scan.table.id)
  (found : tables.find? scan.table.id = some scan) (unjoined : scan.table.id ∉ tree.joined)
include surveyed next_eq found unjoined

/-- Joining the next table makes the chain longer. -/
theorem join {type : Option JoinType}
    (type_eq : JoinGraph.commonType scan.table.id none
      (graph.edgesTo scan.table.id tree.joined) = .ok type) :
    ∃ wider, graph.join tables tree scan.table.id scan.group = .ok wider ∧
      Growing graph (order ++ [scan.table]) first wider := by
  have position := (surveyed.scanned.position_of_find? found).1
  have joins := surveyed.joins next_eq type_eq
  rw [growing.joined_eq] at joins unjoined
  rcases growing.chained.extend position joins with ⟨larger, add_eq, chained⟩
  rw [← growing.root_eq, ← growing.joined_eq] at add_eq
  refine ⟨⟨larger, tree.memo.groups.size, tree.joined ++ [scan.table.id]⟩, ?_, chained, ?_, ?_,
    Scanned.nodup_append_map growing.nodup unjoined, ?_⟩
  · simp only [JoinGraph.join, JoinGraph.edgesTo, bind, Except.bind] at type_eq add_eq ⊢
    rw [type_eq]
    dsimp only
    rw [add_eq]
    rfl
  · have size := growing.chained.size
    have wider_size := chained.size
    have positive := growing.chained.length_pos
    rw [List.length_append, List.length_singleton] at wider_size
    have size_eq : larger.groups.size = tree.memo.groups.size + 1 := by omega
    dsimp only
    rw [size_eq, leftOf, if_neg (by omega)]
    rfl
  · rw [growing.joined_eq, List.map_append, List.map_singleton]
  · exact List.append_subset.mpr ⟨growing.known,
      by simpa using (surveyed.table_of_find? found).1⟩

/-- Planning goes on after the next table only if the edges to it have a common type. -/
theorem advance {count : Nat} {whole : JoinTree}
    (joined_eq : graph.joinAll tables (count + 1) tree = .ok whole) :
    ∃ type wider, JoinGraph.commonType scan.table.id none
        (graph.edgesTo scan.table.id tree.joined) = .ok type ∧
      Growing graph (order ++ [scan.table]) first wider ∧
        graph.joinAll tables count wider = .ok whole := by
  rw [JoinGraph.joinAll, next_eq, Option.bind_some, found] at joined_eq
  cases type_eq : JoinGraph.commonType scan.table.id none
    (graph.edgesTo scan.table.id tree.joined) with
  | error failure =>
      rw [JoinGraph.edgesTo] at type_eq
      simp only [JoinGraph.join, type_eq, bind, Except.bind] at joined_eq
      cases joined_eq
  | ok type =>
      rcases growing.join surveyed next_eq found unjoined type_eq with ⟨wider, join_eq, grown⟩
      simp only [join_eq, bind, Except.bind] at joined_eq
      exact ⟨type, wider, rfl, grown, joined_eq⟩

end Growing

/-- What is joined in the end is a chain over all tables. -/
theorem Growing.joinAll {graph : JoinGraph} {tables : ScannedTables} {order : List GraphTable}
    {first : Nat} {tree whole : JoinTree} (growing : Growing graph order first tree)
    (surveyed : Surveyed graph tables) {count : Nat}
    (enough : graph.tables.length ≤ order.length + count)
    (joined_eq : graph.joinAll tables count tree = .ok whole) :
    ∃ all, Growing graph all first whole ∧ all.Perm graph.tables := by
  induction count generalizing tree order with
  | zero =>
      cases joined_eq
      exact ⟨order, growing, growing.perm enough⟩
  | succ count ih =>
      rcases surveyed.next_cases tree.joined with
        ⟨none_left, complete⟩ | ⟨scan, next_eq, found, unjoined⟩
      · rw [JoinGraph.joinAll, none_left] at joined_eq
        cases joined_eq
        refine ⟨order, growing, growing.perm ?_⟩
        have subset : graph.tables.map GraphTable.id ⊆ order.map GraphTable.id := by
          rw [← growing.joined_eq]
          intro id id_mem
          rcases List.mem_map.mp id_mem with ⟨table, table_mem, rfl⟩
          exact complete table table_mem
        simpa using (List.subperm_of_subset surveyed.scanned.ids subset).length_le
      · rcases growing.advance surveyed next_eq found unjoined joined_eq with
          ⟨-, wider, -, grown, rest_eq⟩
        refine ih grown ?_ rest_eq
        rw [List.length_append, List.length_singleton]
        omega

/-! ## Where edges are used -/

/-- The positions of a list without repetitions at which an element stands. -/
theorem getElem?_eq_some_iff_idxOf {α : Type} [DecidableEq α] {list : List α} (nodup : list.Nodup)
    {element : α} (element_mem : element ∈ list) {position : Nat} :
    list[position]? = some element ↔ position = list.idxOf element := by
  constructor
  · intro found
    rcases List.getElem?_eq_some_iff.mp found with ⟨bounded, rfl⟩
    exact (nodup.idxOf_getElem position bounded).symm
  · rintro rfl
    exact List.getElem?_idxOf element_mem

/-- Every edge connects exactly one table of an order with the tables before it. -/
theorem Surveyed.exists_unique_step {graph : JoinGraph} {tables : ScannedTables}
    (surveyed : Surveyed graph tables) {order : List GraphTable} (perm : order.Perm graph.tables)
    {edge : GraphEdge} (edge_mem : edge ∈ graph.edges) :
    ∃! step : Nat, ∃ table, order[step + 1]? = some table ∧
      edge ∈ graph.edgesTo table.id ((order.take (step + 1)).map GraphTable.id) := by
  have ids_perm : (order.map GraphTable.id).Perm (graph.tables.map GraphTable.id) := perm.map _
  have nodup : (order.map GraphTable.id).Nodup := ids_perm.nodup_iff.mpr surveyed.scanned.ids
  rcases surveyed.ends edge edge_mem with ⟨left, right, left_found, right_found⟩
  have left_mem := ids_perm.mem_iff.mpr (surveyed.scanned.exists_scan_iff.mp ⟨left, left_found⟩)
  have right_mem := ids_perm.mem_iff.mpr (surveyed.scanned.exists_scan_iff.mp ⟨right, right_found⟩)
  have step_iff (step : Nat) : (∃ table, order[step + 1]? = some table ∧
      edge ∈ graph.edgesTo table.id ((order.take (step + 1)).map GraphTable.id)) ↔
        (step + 1 = (order.map GraphTable.id).idxOf edge.leftTable ∧
            (order.map GraphTable.id).idxOf edge.rightTable < step + 1) ∨
          (step + 1 = (order.map GraphTable.id).idxOf edge.rightTable ∧
            (order.map GraphTable.id).idxOf edge.leftTable < step + 1) := by
    rw [← getElem?_eq_some_iff_idxOf nodup left_mem, ← getElem?_eq_some_iff_idxOf nodup right_mem,
      ← List.mem_take_iff_idxOf_lt left_mem, ← List.mem_take_iff_idxOf_lt right_mem,
      List.getElem?_map, List.map_take]
    simp only [JoinGraph.edgesTo, List.mem_filter, edge_mem, true_and, GraphEdge.connects_iff]
    cases order[step + 1]? with
    | none => simp
    | some table => simp [eq_comm]
  have apart : (order.map GraphTable.id).idxOf edge.leftTable ≠
      (order.map GraphTable.id).idxOf edge.rightTable :=
    fun same => surveyed.apart edge edge_mem ((List.idxOf_inj left_mem).mp same)
  simp only [step_iff]
  refine ⟨max ((order.map GraphTable.id).idxOf edge.leftTable)
    ((order.map GraphTable.id).idxOf edge.rightTable) - 1, ?_, ?_⟩
  · dsimp only
    omega
  · intro step
    omega

/-- A memo with the scans of all tables of a graph and one chain of joins, which ends at its root. -/
structure PlannedGraph.IsChain (planned : PlannedGraph) (graph : JoinGraph)
    (order : List GraphTable) (first : Nat) : Prop
    extends Chained graph order first planned.memo where
  perm : order.Perm graph.tables
  root_eq : planned.root = leftOf graph.tables.length first planned.memo.groups.size
  once : ∀ edge ∈ graph.edges, ∃! step : Nat, ∃ table, order[step + 1]? = some table ∧
    edge ∈ graph.edgesTo table.id ((order.take (step + 1)).map GraphTable.id)

/-- Every graph that is planned becomes a chain. -/
theorem exists_chain {graph : JoinGraph} {planned : PlannedGraph}
    (planned_eq : graph.plan = .ok planned) : ∃ order first, planned.IsChain graph order first := by
  rcases steps_of_plan planned_eq with
    ⟨tables, id, scan, whole, -, surveyed, start_eq, found, joined_eq, rfl⟩
  have positive := length_pos_of_start start_eq
  have enough : graph.tables.length ≤ [scan.table].length + (graph.tables.length - 1) := by
    rw [List.length_singleton]
    omega
  rcases (Growing.start surveyed found).joinAll surveyed enough joined_eq with ⟨order, grown, perm⟩
  exact ⟨order, scan.group, grown.chained, perm, grown.root_eq,
    fun edge edge_mem => surveyed.exists_unique_step perm edge_mem⟩

end Cascades
