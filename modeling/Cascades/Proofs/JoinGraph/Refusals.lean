import Cascades.Proofs.JoinGraph.Rounds

/-!
# Which join graphs are turned down

Planning turns a graph down for what is wrong with its tables or with one of its edges, or at a step
at which the next table cannot be joined: some edge to it would have to be read the other way round
but is a semi or an anti join, or two edges ask for different types of join. There is no other reason,
and a graph with none of these faults is planned as a chain.
-/

namespace Cascades

theorem JoinType.exchanged?_eq_none_iff {type : JoinType} :
    type.exchanged? = none ↔ type = .semi ∨ type = .anti := by
  cases type <;> simp [exchanged?]

/-- An edge of a known type fails to give the type of a join if that cannot be exchanged. -/
theorem GraphEdge.typeFrom?_eq_none_iff {edge : GraphEdge} {next : String}
    (typed : ∃ type, edge.type? = some type) :
    edge.typeFrom? next = none ↔
      edge.leftTable = next ∧ (edge.type? = some .semi ∨ edge.type? = some .anti) := by
  rcases typed with ⟨type, type_eq⟩
  rw [typeFrom?, type_eq, Option.bind_some, Option.some_inj, Option.some_inj,
    ← JoinType.exchanged?_eq_none_iff]
  split <;> simp_all

namespace JoinGraph

/-- The tables in the order in which planning joins them, whatever the types of the edges are. -/
inductive Joining (graph : JoinGraph) : List String → Prop
  | start {id : String} (start_eq : graph.start? = some id) : Joining graph [id]
  | next {joined : List String} {id : String} (joining : Joining graph joined)
      (next_eq : graph.next? joined = some id) : Joining graph (joined ++ [id])

/-- The reasons to turn a graph down. -/
inductive Refused (graph : JoinGraph) : Prop
  | noTables (none : graph.tables = [])
  | repeatedTable (repeated : ¬ (graph.tables.map GraphTable.reference).Nodup)
  | repeatedId (repeated : ¬ (graph.tables.map GraphTable.id).Nodup)
  | unknownId {edge : GraphEdge} (edge_mem : edge ∈ graph.edges)
      (unknown : edge.leftTable ∉ graph.tables.map GraphTable.id ∨
        edge.rightTable ∉ graph.tables.map GraphTable.id)
  | selfJoin {edge : GraphEdge} (edge_mem : edge ∈ graph.edges)
      (loop : edge.leftTable = edge.rightTable)
  | unknownType {edge : GraphEdge} (edge_mem : edge ∈ graph.edges) (untyped : edge.type? = none)
  | fixedOrder {joined : List String} {next : String} {edge : GraphEdge}
      (joining : graph.Joining joined) (next_eq : graph.next? joined = some next)
      (edge_mem : edge ∈ graph.edgesTo next joined) (first : edge.leftTable = next)
      (fixed : edge.type? = some .semi ∨ edge.type? = some .anti)
  | conflict {joined : List String} {next : String} {edge other : GraphEdge}
      {type otherType : JoinType} (joining : graph.Joining joined)
      (next_eq : graph.next? joined = some next) (edge_mem : edge ∈ graph.edgesTo next joined)
      (other_mem : other ∈ graph.edgesTo next joined) (type_eq : edge.typeFrom? next = some type)
      (other_eq : other.typeFrom? next = some otherType) (different : type ≠ otherType)

variable {graph : JoinGraph}

theorem start?_eq_none_iff : graph.start? = none ↔ graph.tables = [] := by
  rcases graph with ⟨_ | ⟨table, others⟩, _ | ⟨edge, edges⟩, source⟩ <;> simp [start?]

/-- The edges to the next table have a common type unless the graph is turned down. -/
theorem exists_commonType (accepted : ¬ graph.Refused) {joined : List String} {next : String}
    (joining : graph.Joining joined) (next_eq : graph.next? joined = some next) :
    ∃ type, commonType next none (graph.edgesTo next joined) = .ok type := by
  have typed (edge : GraphEdge) (edge_mem : edge ∈ graph.edgesTo next joined) :
      ∃ type, edge.typeFrom? next = some type := by
    have known : ∃ type, edge.type? = some type := by
      refine Option.ne_none_iff_exists'.mp fun untyped => accepted ?_
      exact .unknownType (List.mem_of_mem_filter edge_mem) untyped
    refine Option.ne_none_iff_exists'.mp fun none => accepted ?_
    rcases (GraphEdge.typeFrom?_eq_none_iff known).mp none with ⟨first, fixed⟩
    exact .fixedOrder joining next_eq edge_mem first fixed
  by_cases none : graph.edgesTo next joined = []
  · exact ⟨_, commonType_ok_iff.mpr ⟨by simp [none], fun _ => rfl⟩⟩
  · rcases List.exists_mem_of_ne_nil _ none with ⟨edge, edge_mem⟩
    rcases typed edge edge_mem with ⟨type, type_eq⟩
    refine ⟨some type, commonType_ok_iff.mpr ⟨?_, by simp [none]⟩⟩
    intro other other_mem
    rcases typed other other_mem with ⟨otherType, other_eq⟩
    refine ⟨otherType, other_eq, congrArg some ?_⟩
    by_contra different
    exact accepted (.conflict joining next_eq edge_mem other_mem type_eq other_eq different)

end JoinGraph

namespace Growing

variable {graph : JoinGraph} {tables : ScannedTables} {order : List GraphTable} {first : Nat}
  {tree whole : JoinTree} (growing : Growing graph order first tree)
  (surveyed : Surveyed graph tables)
include growing surveyed

/-- Planning that comes to an end goes on from a tree if there is a next table. -/
theorem step {next : String} (next_eq : graph.next? tree.joined = some next)
    (joined_eq : graph.joinAll tables (graph.tables.length - order.length) tree = .ok whole) :
    ∃ type longer wider, JoinGraph.commonType next none
        (graph.edgesTo next tree.joined) = .ok type ∧
      Growing graph longer first wider ∧ wider.joined = tree.joined ++ [next] ∧
        graph.joinAll tables (graph.tables.length - longer.length) wider = .ok whole := by
  rcases surveyed.next_cases tree.joined with ⟨none_left, -⟩ | ⟨scan, scan_eq, found, unjoined⟩
  · rw [none_left] at next_eq
    cases next_eq
  · obtain rfl := Option.some.inj (scan_eq.symm.trans next_eq)
    have length_lt := growing.length_lt (surveyed.table_of_find? found).1 unjoined
    rcases Nat.exists_eq_add_of_lt length_lt with ⟨rest, length_eq⟩
    have count_eq : graph.tables.length - order.length = rest + 1 := by omega
    have rest_count : graph.tables.length - (order.length + 1) = rest := by omega
    rw [count_eq] at joined_eq
    rcases growing.advance surveyed scan_eq found unjoined joined_eq with
      ⟨type, wider, type_eq, grown, later_eq⟩
    refine ⟨type, _, wider, type_eq, grown, ?_, ?_⟩
    · rw [grown.joined_eq, growing.joined_eq, List.map_append, List.map_singleton]
    · rw [List.length_append, List.length_singleton, rest_count]
      exact later_eq

/-- Unless the graph is turned down, all tables are joined. -/
theorem exists_whole (accepted : ¬ graph.Refused) (joining : graph.Joining tree.joined)
    (count : Nat) : ∃ whole, graph.joinAll tables count tree = .ok whole := by
  induction count generalizing tree order with
  | zero => exact ⟨tree, rfl⟩
  | succ count ih =>
      rw [JoinGraph.joinAll]
      rcases surveyed.next_cases tree.joined with ⟨none_left, -⟩ | ⟨scan, next_eq, found, unjoined⟩
      · rw [none_left]
        exact ⟨tree, rfl⟩
      · rcases JoinGraph.exists_commonType accepted joining next_eq with ⟨type, type_eq⟩
        rcases growing.join surveyed next_eq found unjoined type_eq with ⟨wider, join_eq, grown⟩
        have wider_joined : wider.joined = tree.joined ++ [scan.table.id] := by
          rw [grown.joined_eq, growing.joined_eq, List.map_append, List.map_singleton]
        rcases ih grown (wider_joined ▸ joining.next next_eq) with ⟨whole, joined_eq⟩
        refine ⟨whole, ?_⟩
        rw [next_eq, Option.bind_some, found]
        simp only [join_eq, bind, Except.bind]
        exact joined_eq

end Growing

section Accepted

variable {graph : JoinGraph} {tables : ScannedTables} (surveyed : Surveyed graph tables)
  {id : String} {scan : ScannedTable} {whole : JoinTree}
  (start_eq : graph.start? = some id) (found : tables.find? id = some scan)
  (joined_eq : graph.joinAll tables (graph.tables.length - 1)
    ⟨tables.memo, scan.group, [id]⟩ = .ok whole)
include surveyed start_eq found joined_eq

/-- A graph that is planned to the end is planned from every set of tables on the way. -/
theorem growing_of_joining {joined : List String} (joining : graph.Joining joined) :
    ∃ order tree, Growing graph order scan.group tree ∧ tree.joined = joined ∧
      graph.joinAll tables (graph.tables.length - order.length) tree = .ok whole := by
  induction joining with
  | start other_start =>
      obtain rfl := Option.some.inj (start_eq.symm.trans other_start)
      exact ⟨[scan.table], _, .start surveyed found, rfl, joined_eq⟩
  | next joining next_eq ih =>
      rcases ih with ⟨order, tree, growing, rfl, rest_eq⟩
      rcases growing.step surveyed next_eq rest_eq with
        ⟨-, longer, wider, -, grown, wider_joined, later_eq⟩
      exact ⟨longer, wider, grown, wider_joined, later_eq⟩

/-- A graph that is planned to the end has a common type at every step. -/
theorem commonType_of_joining {joined : List String} {next : String}
    (joining : graph.Joining joined) (next_eq : graph.next? joined = some next) :
    ∃ type, JoinGraph.commonType next none (graph.edgesTo next joined) = .ok type := by
  rcases growing_of_joining surveyed start_eq found joined_eq joining with
    ⟨order, tree, growing, rfl, rest_eq⟩
  rcases growing.step surveyed next_eq rest_eq with ⟨type, -, -, type_eq, -⟩
  exact ⟨type, type_eq⟩

end Accepted

namespace JoinGraph

variable {graph : JoinGraph}

theorem exists_plan (accepted : ¬ graph.Refused) : ∃ planned, graph.plan = .ok planned := by
  cases start_eq : graph.start? with
  | none => exact (accepted (.noTables (start?_eq_none_iff.mp start_eq))).elim
  | some id =>
      have references : (graph.tables.map GraphTable.reference).Nodup := by
        by_contra repeated
        exact accepted (.repeatedTable repeated)
      have ids : (graph.tables.map GraphTable.id).Nodup := by
        by_contra repeated
        exact accepted (.repeatedId repeated)
      rcases Scanned.empty.foldlM_ok_iff.mpr ⟨references, ids⟩ with ⟨tables, folded⟩
      have scanned : Scanned graph.tables tables := Scanned.empty.foldlM folded
      have surveyed : Surveyed graph tables := by
        refine ⟨scanned, fun edge edge_mem => ?_, fun edge edge_mem loop => ?_,
          fun edge edge_mem => ?_⟩
        · have known : edge.leftTable ∈ graph.tables.map GraphTable.id ∧
              edge.rightTable ∈ graph.tables.map GraphTable.id := by
            by_contra unknown
            exact accepted (.unknownId edge_mem (not_and_or.mp unknown))
          rcases scanned.exists_scan_iff.mpr known.1 with ⟨left, left_found⟩
          rcases scanned.exists_scan_iff.mpr known.2 with ⟨right, right_found⟩
          exact ⟨left, right, left_found, right_found⟩
        · exact accepted (.selfJoin edge_mem loop)
        · exact Option.ne_none_iff_exists'.mp fun untyped =>
            accepted (.unknownType edge_mem untyped)
      rcases surveyed.start_scan start_eq with ⟨scan, found⟩
      rcases (Growing.start surveyed found).exists_whole surveyed accepted (.start start_eq)
        (graph.tables.length - 1) with ⟨whole, joined_eq⟩
      refine ⟨⟨whole.memo, tables.catalog, whole.root⟩, ?_⟩
      rw [plan_eq, start_eq]
      simp only [folded, (surveyed_iff folded).mpr surveyed, found, joined_eq, bind, Except.bind]
      rfl

theorem not_refused {planned : PlannedGraph} (planned_eq : graph.plan = .ok planned) :
    ¬ graph.Refused := by
  rcases steps_of_plan planned_eq with
    ⟨tables, id, scan, whole, -, surveyed, start_eq, found, joined_eq, -⟩
  have known {end_ : String} {other : ScannedTable} (end_found : tables.find? end_ = some other) :
      end_ ∈ graph.tables.map GraphTable.id :=
    surveyed.scanned.exists_scan_iff.mp ⟨other, end_found⟩
  have typed {joined : List String} {next : String} {edge : GraphEdge} {type : Option JoinType}
      (type_eq : commonType next none (graph.edgesTo next joined) = .ok type)
      (edge_mem : edge ∈ graph.edgesTo next joined) : edge.typeFrom? next = type := by
    rcases (commonType_ok_iff.mp type_eq).1 edge edge_mem with ⟨found, found_eq, rfl⟩
    exact found_eq
  intro refused
  cases refused with
  | noTables none => exact nomatch (start?_eq_none_iff.mpr none).symm.trans start_eq
  | repeatedTable repeated => exact repeated surveyed.scanned.references
  | repeatedId repeated => exact repeated surveyed.scanned.ids
  | unknownId edge_mem unknown =>
      rcases surveyed.ends _ edge_mem with ⟨left, right, left_found, right_found⟩
      exact unknown.elim (· (known left_found)) (· (known right_found))
  | selfJoin edge_mem loop => exact surveyed.apart _ edge_mem loop
  | unknownType edge_mem untyped =>
      rcases surveyed.typed _ edge_mem with ⟨type, type_eq⟩
      exact nomatch untyped.symm.trans type_eq
  | fixedOrder joining next_eq edge_mem first fixed =>
      rcases commonType_of_joining surveyed start_eq found joined_eq joining next_eq with
        ⟨type, type_eq⟩
      have none := (GraphEdge.typeFrom?_eq_none_iff
        (surveyed.typed _ (List.mem_of_mem_filter edge_mem))).mpr ⟨first, fixed⟩
      rcases (commonType_ok_iff.mp type_eq).1 _ edge_mem with ⟨some_type, found_eq, -⟩
      exact nomatch none.symm.trans found_eq
  | conflict joining next_eq edge_mem other_mem edge_type other_type different =>
      rcases commonType_of_joining surveyed start_eq found joined_eq joining next_eq with
        ⟨type, type_eq⟩
      have same := (typed type_eq edge_mem).trans (typed type_eq other_mem).symm
      rw [edge_type, other_type] at same
      exact different (Option.some.inj same)

theorem refused_iff : (∃ error, graph.plan = .error error) ↔ graph.Refused := by
  constructor
  · rintro ⟨error, failed⟩
    by_contra accepted
    rcases exists_plan accepted with ⟨planned, planned_eq⟩
    exact nomatch failed.symm.trans planned_eq
  · intro refused
    cases planned_eq : graph.plan with
    | error error => exact ⟨error, rfl⟩
    | ok planned => exact (not_refused planned_eq refused).elim

/--
Planning ends by itself, without looking up an unknown table, and either turns the graph down for
one of the listed reasons or makes a chain of joins that has every table and uses every edge once.
-/
theorem plan_exact (graph : JoinGraph) :
    (∀ rounds, graph.tables.length ≤ rounds + 1 →
      graph.planRounds rounds = graph.plan.mapError .refused) ∧
    ((∃ error, graph.plan = .error error) ↔ graph.Refused) ∧
    ∀ planned, graph.plan = .ok planned → ∃ order first, planned.IsChain graph order first :=
  ⟨fun _ enough => planRounds_eq enough, refused_iff, fun _ => exists_chain⟩

/-- Edges in both directions, two of them to the same table, and a table that no edge connects. -/
def mixed : JoinGraph :=
  ⟨[⟨"a", "s", "ta", ["x"]⟩, ⟨"b", "s", "tb", ["y"]⟩, ⟨"c", "s", "tc", ["z"]⟩, ⟨"d", "s", "td", []⟩],
    [⟨"b", "a", "left", "y", "x"⟩, ⟨"a", "c", "Inner", "x", "z"⟩, ⟨"c", "b", "inner", "z", "y"⟩],
    none⟩

theorem plan_exact_mixed : mixed.planRounds 3 = mixed.plan.mapError .refused ∧ ¬ mixed.Refused ∧
    ∃ planned order first, mixed.plan = .ok planned ∧ planned.IsChain mixed order first := by
  rcases plan_exact mixed with ⟨rounds_eq, refused_iff, chain⟩
  have accepted : mixed.plan.toOption.isSome = true := by decide +kernel
  cases planned_eq : mixed.plan with
  | error error =>
      rw [planned_eq] at accepted
      cases accepted
  | ok planned =>
      rcases chain planned planned_eq with ⟨order, first, isChain⟩
      refine ⟨planned_eq ▸ rounds_eq 3 (by decide), ?_, planned, order, first, rfl, isChain⟩
      rw [← refused_iff, planned_eq]
      rintro ⟨error, error_eq⟩
      cases error_eq

end JoinGraph

end Cascades
