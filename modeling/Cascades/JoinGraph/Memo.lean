import Cascades.Catalog
import Cascades.JoinGraph.Basic
import Cascades.Memo.Insert

/-!
# The memo of a join graph

A join graph is turned into a left-deep tree of joins. The tree starts from the left table of the
first edge, or from the first table if there are no edges. Then the other end of the first edge that
connects the tree with a table outside it is joined on the right, with the equalities of all edges
between that table and the tree as its condition. A table that no edge connects is added by a cross
join.

An edge that lists the new table first is read the other way round, which semi and anti joins do not
admit. All edges of one join must agree on its type.
-/

namespace Cascades

/-- A memo with a root group, and the catalog of its tables. -/
structure PlannedGraph where
  memo : Memo
  catalog : Catalog
  root : GroupId

/-- A table of a join graph with the group of its scan. -/
structure ScannedTable where
  table : GraphTable
  group : GroupId

/-- What has been read of the tables of a join graph. -/
structure ScannedTables where
  memo : Memo
  catalog : Catalog
  scans : List ScannedTable

/-- A tree of joins over some tables. -/
structure JoinTree where
  memo : Memo
  root : GroupId
  joined : List String

namespace ScannedTables

/-- No tables have been read yet. -/
def empty : ScannedTables :=
  ⟨.empty, .empty, []⟩

/-- The scan of a table identifier. -/
def find? (tables : ScannedTables) (id : String) : Option ScannedTable :=
  tables.scans.find? fun scan => scan.table.id == id

/-- Adds the scan of a table. Neither its reference nor its identifier may be known already. -/
def add (tables : ScannedTables) (table : GraphTable) : Except GraphError ScannedTables :=
  if tables.scans.any fun scan => scan.table.reference == table.reference then
    .error (.repeatedTable table.schema table.name)
  else if (tables.find? table.id).isSome then .error (.repeatedId table.id)
  else
    let (memo, group, _) := tables.memo.add table.scan [] none
    .ok ⟨memo, tables.catalog.add table.reference table.columnRefs,
      tables.scans ++ [⟨table, group⟩]⟩

end ScannedTables

namespace GraphEdge

/-- Whether an edge connects two known tables by a known type of join. -/
def check (edge : GraphEdge) (tables : ScannedTables) : Except GraphError Unit := do
  if (tables.find? edge.leftTable).isNone then throw (.unknownId edge.leftTable)
  if (tables.find? edge.rightTable).isNone then throw (.unknownId edge.rightTable)
  if edge.leftTable = edge.rightTable then throw (.selfJoin edge.leftTable)
  let _ ← JoinType.parse edge.joinType

/-- The end of an edge outside a set of tables that contains the other end. -/
def outside? (edge : GraphEdge) (joined : List String) : Option String :=
  match joined.contains edge.leftTable, joined.contains edge.rightTable with
  | true, false => some edge.rightTable
  | false, true => some edge.leftTable
  | _, _ => none

/-- Whether an edge connects a table with a set of tables. -/
def connects (edge : GraphEdge) (next : String) (joined : List String) : Bool :=
  (edge.leftTable == next && joined.contains edge.rightTable) ||
    (edge.rightTable == next && joined.contains edge.leftTable)

/-- The type of the join that adds a table on the right by an edge. -/
def typeFor (edge : GraphEdge) (next : String) : Except GraphError JoinType := do
  let declared ← JoinType.parse edge.joinType
  if edge.leftTable = next then
    match declared.exchanged? with
    | some type => return type
    | none => throw (.fixedOrder (Text.upperCase edge.joinType) next)
  else return declared

/-- The equality that an edge stands for. -/
def condition? (edge : GraphEdge) (tables : ScannedTables) : Option Scalar :=
  match tables.find? edge.leftTable, tables.find? edge.rightTable with
  | some left, some right =>
      some (.equality left.table.name edge.leftColumn right.table.name edge.rightColumn)
  | _, _ => none

end GraphEdge

namespace JoinGraph

/--
The common type of the join that adds a table by several edges, given the type of earlier ones.
-/
def commonType (next : String) (chosen : Option JoinType) :
    List GraphEdge → Except GraphError (Option JoinType)
  | [] => .ok chosen
  | edge :: rest => do
      let type ← edge.typeFor next
      match chosen with
      | none => commonType next (some type) rest
      | some existing =>
          if existing = type then commonType next chosen rest
          else throw (.conflictingTypes existing type next)

/-- The table to join next: at an edge that leaves the tree, or else the first one outside it. -/
def next? (graph : JoinGraph) (joined : List String) : Option String :=
  match graph.edges.findSome? fun edge => edge.outside? joined with
  | some id => some id
  | none => (graph.tables.map GraphTable.id).find? fun id => !joined.contains id

/-- The condition of the join that adds a table by edges. -/
def conditionOf (tables : ScannedTables) (edges : List GraphEdge) : Scalar :=
  if edges.isEmpty then .truth
  else .canonicalConjunction (edges.filterMap fun edge => edge.condition? tables)

/-- Adds a table to a tree on the right. -/
def join (graph : JoinGraph) (tables : ScannedTables) (tree : JoinTree) (next : String)
    (scan : GroupId) : Except GraphError JoinTree := do
  let edges := graph.edges.filter fun edge => edge.connects next tree.joined
  let type ← commonType next none edges
  let (memo, root, _) := tree.memo.add
    (.logical (.join (type.getD .cross) (conditionOf tables edges))) [tree.root, scan] none
  return ⟨memo, root, tree.joined ++ [next]⟩

/-- Adds at most the given number of tables to a tree, until none is left. -/
def joinAll (graph : JoinGraph) (tables : ScannedTables) :
    (count : Nat) → JoinTree → Except GraphError JoinTree
  | 0, tree => .ok tree
  | count + 1, tree =>
      match (graph.next? tree.joined).bind tables.find? with
      | none => .ok tree
      | some scan => do
          let tree ← graph.join tables tree scan.table.id scan.group
          joinAll graph tables count tree

/-- The left-deep tree of a join graph, as a memo. -/
def plan (graph : JoinGraph) : Except GraphError PlannedGraph := do
  match graph.tables with
  | [] => throw .noTables
  | table :: others => do
      let tables ← (table :: others).foldlM ScannedTables.add .empty
      graph.edges.forM fun edge => edge.check tables
      let first :=
        match graph.edges with
        | [] => table.id
        | edge :: _ => edge.leftTable
      match tables.find? first with
      | none => throw (.unknownId first)
      | some scan => do
          let tree ← graph.joinAll tables others.length ⟨tables.memo, scan.group, [first]⟩
          return ⟨tree.memo, tables.catalog, tree.root⟩

end JoinGraph

end Cascades
