import Cascades.Proofs.JoinGraph.Scans

/-!
# Surveyed join graphs

Before any table is joined, all tables are scanned and all edges are checked. A graph that passes has
tables of different references and identifiers, and edges of known types between different ones of
them. From then on every identifier that planning comes across is one of a table.
-/

namespace Cascades

namespace GraphEdge

/-- The type of join that an edge names. -/
def type? (edge : GraphEdge) : Option JoinType :=
  JoinType.ofUpperCase? (Text.upperCase edge.joinType)

/--
The type of the join that adds a table on the right by an edge: the type that the edge names, or if
it lists the table first, the type with the inputs exchanged.
-/
def typeFrom? (edge : GraphEdge) (next : String) : Option JoinType :=
  edge.type?.bind fun type => if edge.leftTable = next then type.exchanged? else some type

end GraphEdge

namespace JoinGraph

/-- The table that the tree starts from. -/
def start? (graph : JoinGraph) : Option String :=
  match graph.tables, graph.edges with
  | [], _ => none
  | table :: _, [] => some table.id
  | _ :: _, edge :: _ => some edge.leftTable

/-- The edges between a table and a tree. -/
def edgesTo (graph : JoinGraph) (next : String) (joined : List String) : List GraphEdge :=
  graph.edges.filter fun edge => edge.connects next joined

end JoinGraph

section Checks

variable {edge : GraphEdge} {tables : ScannedTables}

theorem parse_ok_iff {type : JoinType} :
    JoinType.parse edge.joinType = .ok type ↔ edge.type? = some type := by
  rw [JoinType.parse, GraphEdge.type?]
  cases JoinType.ofUpperCase? (Text.upperCase edge.joinType) <;> simp

theorem typeFor_ok_iff {next : String} {type : JoinType} :
    edge.typeFor next = .ok type ↔ edge.typeFrom? next = some type := by
  rw [GraphEdge.typeFor, GraphEdge.typeFrom?, JoinType.parse, GraphEdge.type?]
  cases JoinType.ofUpperCase? (Text.upperCase edge.joinType) with
  | none => simp [bind, Except.bind]
  | some declared =>
      by_cases first : edge.leftTable = next
      · cases exchanged : declared.exchanged? <;>
          simp [bind, Except.bind, pure, Except.pure, throw, throwThe, MonadExceptOf.throw, first,
            exchanged]
      · simp [bind, Except.bind, pure, Except.pure, first]

/-- An edge passes its check if it connects two different known tables by a known type of join. -/
theorem check_ok_iff : edge.check tables = .ok () ↔
    (∃ left right, tables.find? edge.leftTable = some left ∧
      tables.find? edge.rightTable = some right) ∧
        edge.leftTable ≠ edge.rightTable ∧ ∃ type, edge.type? = some type := by
  have parsed : (∃ type, JoinType.parse edge.joinType = .ok type) ↔ ∃ type, edge.type? = some type :=
    exists_congr fun _ => parse_ok_iff
  rw [GraphEdge.check, ← parsed]
  cases left_found : tables.find? edge.leftTable with
  | none => simp [bind, Except.bind, throw, throwThe, MonadExceptOf.throw]
  | some left =>
      cases right_found : tables.find? edge.rightTable with
      | none => simp [bind, Except.bind, throw, throwThe, MonadExceptOf.throw]
      | some right =>
          by_cases loop : edge.leftTable = edge.rightTable
          · simp [bind, Except.bind, throw, throwThe, MonadExceptOf.throw, loop]
          · cases JoinType.parse edge.joinType <;>
              simp [bind, Except.bind, pure, Except.pure, loop]

theorem forM_ok_iff {α ε : Type} {check : α → Except ε Unit} {list : List α} :
    list.forM check = .ok () ↔ ∀ x ∈ list, check x = .ok () := by
  induction list with
  | nil => simp [pure, Except.pure]
  | cons first rest ih =>
      have forM_eq : (first :: rest).forM check = check first >>= fun _ => rest.forM check := rfl
      rw [forM_eq, List.forall_mem_cons, ← ih]
      cases check first <;> simp [bind, Except.bind]

end Checks

/-- A graph of known tables, whose edges are of known types and connect different ones of them. -/
structure Surveyed (graph : JoinGraph) (tables : ScannedTables) : Prop where
  scanned : Scanned graph.tables tables
  ends : ∀ edge ∈ graph.edges, ∃ left right, tables.find? edge.leftTable = some left ∧
    tables.find? edge.rightTable = some right
  apart : ∀ edge ∈ graph.edges, edge.leftTable ≠ edge.rightTable
  typed : ∀ edge ∈ graph.edges, ∃ type, edge.type? = some type

/-- A graph passes its checks exactly if it is surveyed. -/
theorem surveyed_iff {graph : JoinGraph} {tables : ScannedTables}
    (folded : graph.tables.foldlM ScannedTables.add .empty = .ok tables) :
    (graph.edges.forM fun edge => edge.check tables) = .ok () ↔ Surveyed graph tables := by
  simp only [forM_ok_iff, check_ok_iff]
  constructor
  · intro passed
    exact ⟨Scanned.empty.foldlM folded, fun edge edge_mem => (passed edge edge_mem).1,
      fun edge edge_mem => (passed edge edge_mem).2.1,
      fun edge edge_mem => (passed edge edge_mem).2.2⟩
  · intro surveyed edge edge_mem
    exact ⟨surveyed.ends edge edge_mem, surveyed.apart edge edge_mem, surveyed.typed edge edge_mem⟩

namespace Surveyed

variable {graph : JoinGraph} {tables : ScannedTables} (surveyed : Surveyed graph tables)
include surveyed

theorem table?_of_find? {id : String} {scan : ScannedTable} (found : tables.find? id = some scan) :
    graph.table? id = some scan.table := by
  rw [JoinGraph.table?, ← surveyed.scanned.find?_table, found]
  rfl

theorem table_of_find? {id : String} {scan : ScannedTable} (found : tables.find? id = some scan) :
    scan.table ∈ graph.tables ∧ scan.table.id = id :=
  JoinGraph.table?_mem (surveyed.table?_of_find? found)

theorem table_eq_of_id {first second : GraphTable} (first_mem : first ∈ graph.tables)
    (second_mem : second ∈ graph.tables) (same : first.id = second.id) : first = second :=
  List.inj_on_of_nodup_map surveyed.scanned.ids first_mem second_mem same

/-- Every edge stands for a link between the names of its tables. -/
theorem link?_eq {edge : GraphEdge} {left right : ScannedTable}
    (left_found : tables.find? edge.leftTable = some left)
    (right_found : tables.find? edge.rightTable = some right) :
    graph.link? edge =
        some ⟨left.table.name, edge.leftColumn, right.table.name, edge.rightColumn⟩ ∧
      edge.condition? tables = some (Link.equality
        ⟨left.table.name, edge.leftColumn, right.table.name, edge.rightColumn⟩) := by
  rw [JoinGraph.link?, surveyed.table?_of_find? left_found, surveyed.table?_of_find? right_found,
    GraphEdge.condition?, left_found, right_found]
  exact ⟨rfl, rfl⟩

theorem exists_scan {table : GraphTable} (table_mem : table ∈ graph.tables) :
    ∃ scan, tables.find? table.id = some scan :=
  surveyed.scanned.exists_scan_iff.mpr (List.mem_map_of_mem table_mem)

/-- There is a next table, which an edge leads to if one leaves the tree, or the tree has all. -/
theorem next_cases (joined : List String) :
    (graph.next? joined = none ∧ ∀ table ∈ graph.tables, table.id ∈ joined) ∨
      ∃ scan, graph.next? joined = some scan.table.id ∧
        tables.find? scan.table.id = some scan ∧ scan.table.id ∉ joined := by
  have listed {id : String} (known : ∃ scan, tables.find? id = some scan) (unjoined : id ∉ joined)
      (next_eq : graph.next? joined = some id) :
      ∃ scan, graph.next? joined = some scan.table.id ∧
        tables.find? scan.table.id = some scan ∧ scan.table.id ∉ joined := by
    rcases known with ⟨scan, found⟩
    obtain rfl := (surveyed.table_of_find? found).2
    exact ⟨scan, next_eq, found, unjoined⟩
  cases leaving : graph.edges.findSome? fun edge => edge.outside? joined with
  | some id =>
      have next_eq : graph.next? joined = some id := by rw [JoinGraph.next?, leaving]
      rcases List.exists_of_findSome?_eq_some leaving with ⟨edge, edge_mem, outside⟩
      rcases surveyed.ends edge edge_mem with ⟨left, right, left_found, right_found⟩
      rw [GraphEdge.outside?] at outside
      refine .inr (listed ?_ ?_ next_eq)
      · split at outside
        · cases outside
          exact ⟨right, right_found⟩
        · cases outside
          exact ⟨left, left_found⟩
        · cases outside
      · split at outside
        · rename_i _ right_out
          cases outside
          simpa using right_out
        · rename_i left_out _
          cases outside
          simpa using left_out
        · cases outside
  | none =>
      cases missing : (graph.tables.map GraphTable.id).find? fun id => !joined.contains id with
      | some id =>
          have next_eq : graph.next? joined = some id := by rw [JoinGraph.next?, leaving, missing]
          rcases List.mem_map.mp (List.mem_of_find?_eq_some missing) with ⟨table, table_mem, rfl⟩
          exact .inr (listed (surveyed.exists_scan table_mem)
            (by simpa using List.find?_some missing) next_eq)
      | none =>
          refine .inl ⟨by rw [JoinGraph.next?, leaving, missing], ?_⟩
          intro table table_mem
          simpa using List.find?_eq_none.mp missing _ (List.mem_map_of_mem table_mem)

/-- The tree starts from a table of the graph. -/
theorem start_scan {id : String} (start_eq : graph.start? = some id) :
    ∃ scan, tables.find? id = some scan := by
  rw [JoinGraph.start?] at start_eq
  split at start_eq
  · cases start_eq
  · rename_i table others tables_eq edges_eq
    cases start_eq
    exact surveyed.exists_scan (tables_eq ▸ List.mem_cons_self)
  · rename_i edge others tables_eq edges_eq
    cases start_eq
    rcases surveyed.ends edge (edges_eq ▸ List.mem_cons_self) with ⟨left, right, found, -⟩
    exact ⟨left, found⟩

end Surveyed

/-! ## The steps of planning -/

section Plan

variable {graph : JoinGraph}

/-- Planning reads the tables, checks the edges and joins the tables one after the other. -/
theorem plan_eq : graph.plan =
    match graph.start? with
    | none => .error .noTables
    | some first => do
        let tables ← graph.tables.foldlM ScannedTables.add .empty
        graph.edges.forM fun edge => edge.check tables
        match tables.find? first with
        | none => throw (.unknownId first)
        | some scan => do
            let tree ← graph.joinAll tables (graph.tables.length - 1)
              ⟨tables.memo, scan.group, [first]⟩
            return ⟨tree.memo, tables.catalog, tree.root⟩ := by
  rw [JoinGraph.plan, JoinGraph.start?]
  rcases graph with ⟨_ | ⟨table, others⟩, _ | ⟨edge, edges⟩, source⟩ <;> rfl

theorem steps_of_plan {planned : PlannedGraph} (planned_eq : graph.plan = .ok planned) :
    ∃ tables id scan tree, graph.tables.foldlM ScannedTables.add .empty = .ok tables ∧
      Surveyed graph tables ∧ graph.start? = some id ∧ tables.find? id = some scan ∧
        graph.joinAll tables (graph.tables.length - 1) ⟨tables.memo, scan.group, [id]⟩ = .ok tree ∧
          planned = ⟨tree.memo, tables.catalog, tree.root⟩ := by
  rw [plan_eq] at planned_eq
  split at planned_eq
  · cases planned_eq
  · rename_i id start_eq
    simp only [bind, Except.bind] at planned_eq
    split at planned_eq
    · cases planned_eq
    · rename_i tables folded
      split at planned_eq
      · cases planned_eq
      · rename_i checked
        split at planned_eq
        · cases planned_eq
        · rename_i scan found
          split at planned_eq
          · cases planned_eq
          · rename_i tree joined_eq
            cases planned_eq
            exact ⟨tables, id, scan, tree, folded, (surveyed_iff folded).mp checked, start_eq, found,
              joined_eq, rfl⟩

theorem length_pos_of_start {id : String} (start_eq : graph.start? = some id) :
    0 < graph.tables.length := by
  rw [JoinGraph.start?] at start_eq
  split at start_eq
  · cases start_eq
  · rename_i tables_eq _
    simp [tables_eq]
  · rename_i tables_eq _
    simp [tables_eq]

end Plan

end Cascades
