import Cascades.Proofs.JoinGraph.Building

/-!
# Planning looks up known tables only

The loop of planning goes on as long as some table is not joined, and looks up the scan of a table by
its identifier without asking whether there is one. Here a failing lookup and the end of a bounded
number of rounds are outcomes of their own. Neither ever happens: every identifier that is looked up
has passed the checks, and each round joins another table.
-/

namespace Cascades

/-- Why planning that looks up tables by their identifiers stops. -/
inductive Halt where
  | refused (error : GraphError)
  | unindexed (id : String)
  | outOfRounds

/-- Looks up the scan of a table that is expected to be known. -/
def ScannedTables.scanOf (tables : ScannedTables) (id : String) : Except Halt ScannedTable :=
  match tables.find? id with
  | some scan => .ok scan
  | none => .error (.unindexed id)

/-- The equality of an edge whose tables are expected to be known. -/
def GraphEdge.equalityIn (edge : GraphEdge) (tables : ScannedTables) : Except Halt Scalar := do
  let left ← tables.scanOf edge.leftTable
  let right ← tables.scanOf edge.rightTable
  return .equality left.table.name edge.leftColumn right.table.name edge.rightColumn

namespace JoinGraph

/-- The condition of some edges, truth if there are none. -/
def conditionIn (tables : ScannedTables) (edges : List GraphEdge) : Except Halt Scalar :=
  if edges.isEmpty then .ok .truth
  else do
    let conjuncts ← edges.mapM fun edge => edge.equalityIn tables
    return .canonicalConjunction conjuncts

/-- One round: joins a table on the right. -/
def joinNext (graph : JoinGraph) (tables : ScannedTables) (tree : JoinTree) (next : String) :
    Except Halt JoinTree := do
  let edges := graph.edgesTo next tree.joined
  let type ← (commonType next none edges).mapError .refused
  let condition ← conditionIn tables edges
  let scan ← tables.scanOf next
  let (memo, root, _) := tree.memo.add
    (.logical (.join (type.getD .cross) condition)) [tree.root, scan.group] none
  return ⟨memo, root, tree.joined ++ [next]⟩

/-- Joins tables as long as some are missing, in a bounded number of rounds. -/
def joinRounds (graph : JoinGraph) (tables : ScannedTables) :
    (rounds : Nat) → JoinTree → Except Halt JoinTree
  | 0, tree => if tree.joined.length < graph.tables.length then .error .outOfRounds else .ok tree
  | rounds + 1, tree =>
      if tree.joined.length < graph.tables.length then
        match graph.next? tree.joined with
        | none => .ok tree
        | some next => do
            let tree ← graph.joinNext tables tree next
            joinRounds graph tables rounds tree
      else .ok tree

/-- Planning in a bounded number of rounds. -/
def planRounds (graph : JoinGraph) (rounds : Nat) : Except Halt PlannedGraph :=
  match graph.start? with
  | none => .error (.refused .noTables)
  | some first => do
      let tables ← (graph.tables.foldlM ScannedTables.add .empty).mapError .refused
      (graph.edges.forM fun edge => edge.check tables).mapError .refused
      let scan ← tables.scanOf first
      let tree ← graph.joinRounds tables rounds ⟨tables.memo, scan.group, [first]⟩
      return ⟨tree.memo, tables.catalog, tree.root⟩

end JoinGraph

section Known

variable {graph : JoinGraph} {tables : ScannedTables} (surveyed : Surveyed graph tables)

theorem ScannedTables.scanOf_eq {id : String} {scan : ScannedTable}
    (found : tables.find? id = some scan) : tables.scanOf id = .ok scan := by
  rw [scanOf, found]

include surveyed

/-- Both ends of an edge are known. -/
theorem Surveyed.mapM_equalityIn {edges : List GraphEdge} (subset : edges ⊆ graph.edges) :
    (edges.mapM fun edge => edge.equalityIn tables) =
      .ok (edges.filterMap fun edge => edge.condition? tables) := by
  induction edges with
  | nil => rfl
  | cons edge rest ih =>
      rcases List.cons_subset.mp subset with ⟨edge_mem, rest_subset⟩
      rcases surveyed.ends edge edge_mem with ⟨left, right, left_found, right_found⟩
      have condition_eq := (surveyed.link?_eq left_found right_found).2
      rw [List.mapM_cons, ih rest_subset, List.filterMap_cons, condition_eq, GraphEdge.equalityIn,
        ScannedTables.scanOf_eq left_found, ScannedTables.scanOf_eq right_found]
      rfl

theorem Surveyed.conditionIn_eq {edges : List GraphEdge} (subset : edges ⊆ graph.edges) :
    JoinGraph.conditionIn tables edges = .ok (JoinGraph.conditionOf tables edges) := by
  rw [JoinGraph.conditionIn, JoinGraph.conditionOf, surveyed.mapM_equalityIn subset]
  split <;> rfl

theorem Surveyed.joinNext_eq {tree : JoinTree} {next : String} {scan : ScannedTable}
    (found : tables.find? next = some scan) :
    graph.joinNext tables tree next =
      (graph.join tables tree next scan.group).mapError .refused := by
  have subset : graph.edgesTo next tree.joined ⊆ graph.edges := List.filter_subset_self _
  rw [JoinGraph.joinNext, JoinGraph.join, surveyed.conditionIn_eq subset,
    ScannedTables.scanOf_eq found, JoinGraph.edgesTo]
  cases JoinGraph.commonType next none
    (graph.edges.filter fun edge => edge.connects next tree.joined) <;> rfl

end Known

/-- Every round joins another table, so that there are as many rounds as tables missing. -/
theorem Growing.joinRounds_eq {graph : JoinGraph} {tables : ScannedTables}
    {order : List GraphTable} {first : Nat} {tree : JoinTree}
    (growing : Growing graph order first tree) (surveyed : Surveyed graph tables) {rounds : Nat}
    (enough : graph.tables.length ≤ order.length + rounds) :
    graph.joinRounds tables rounds tree =
      (graph.joinAll tables (graph.tables.length - order.length) tree).mapError .refused := by
  have length_eq : tree.joined.length = order.length := by
    rw [growing.joined_eq, List.length_map]
  induction rounds generalizing tree order with
  | zero =>
      rw [Nat.add_zero] at enough
      rw [JoinGraph.joinRounds, length_eq, if_neg (Nat.not_lt.mpr enough),
        Nat.sub_eq_zero_of_le enough]
      rfl
  | succ rounds ih =>
      rw [JoinGraph.joinRounds, length_eq]
      split
      · rename_i missing
        rcases Nat.exists_eq_add_of_lt missing with ⟨rest, rest_eq⟩
        have count_eq : graph.tables.length - order.length = rest + 1 := by omega
        have rest_count : graph.tables.length - (order.length + 1) = rest := by omega
        rw [count_eq, JoinGraph.joinAll]
        rcases surveyed.next_cases tree.joined with
          ⟨none_left, -⟩ | ⟨scan, next_eq, found, unjoined⟩
        · rw [none_left]
          rfl
        · rw [next_eq, Option.bind_some, found]
          dsimp only
          rw [surveyed.joinNext_eq found]
          cases type_eq : JoinGraph.commonType scan.table.id none
            (graph.edgesTo scan.table.id tree.joined) with
          | error failure =>
              rw [JoinGraph.edgesTo] at type_eq
              rw [JoinGraph.join, type_eq]
              rfl
          | ok type =>
              rcases growing.join surveyed next_eq found unjoined type_eq with
                ⟨wider, join_eq, grown⟩
              have later := ih grown (by simp; omega) (by rw [grown.joined_eq, List.length_map])
              rw [List.length_append, List.length_singleton, rest_count] at later
              rw [join_eq]
              exact later
      · rename_i complete
        rw [Nat.sub_eq_zero_of_le (Nat.le_of_not_lt complete)]
        rfl

/-- No lookup fails, and the loop ends by itself after as many rounds as there are joins. -/
theorem planRounds_eq {graph : JoinGraph} {rounds : Nat}
    (enough : graph.tables.length ≤ rounds + 1) :
    graph.planRounds rounds = graph.plan.mapError .refused := by
  rw [JoinGraph.planRounds, plan_eq]
  cases start_eq : graph.start? with
  | none => rfl
  | some first =>
      dsimp only
      cases folded : graph.tables.foldlM ScannedTables.add .empty with
      | error failure => rfl
      | ok tables =>
          simp only [bind, Except.bind, Except.mapError]
          cases checked : graph.edges.forM fun edge => edge.check tables with
          | error failure => rfl
          | ok passed =>
              have surveyed := (surveyed_iff folded).mp checked
              rcases surveyed.start_scan start_eq with ⟨scan, found⟩
              have growing := Growing.start surveyed found
              have rounds_eq := growing.joinRounds_eq surveyed (Nat.add_comm rounds 1 ▸ enough)
              rw [List.length_singleton] at rounds_eq
              rw [ScannedTables.scanOf_eq found, found]
              dsimp only
              rw [rounds_eq]
              cases graph.joinAll tables (graph.tables.length - 1)
                ⟨tables.memo, scan.group, [first]⟩ <;> rfl

end Cascades
