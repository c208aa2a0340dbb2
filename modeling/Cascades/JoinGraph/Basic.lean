import Cascades.Operator.Text
import Cascades.Text.UpperCase

/-!
# Join graphs

A join graph names tables by identifiers and connects them by edges, each an equality of two columns
with a type of join. The type is read without regard to case.
-/

namespace Cascades

/-- A table of a join graph. Edges refer to it by its identifier. -/
structure GraphTable where
  id : String
  schema : String
  name : String
  columns : List String
deriving DecidableEq

/-- An equality between columns of two tables. -/
structure GraphEdge where
  leftTable : String
  rightTable : String
  joinType : String
  leftColumn : String
  rightColumn : String
deriving DecidableEq

/-- The tables to be joined, the edges between them, and the source whose rules may be applied. -/
structure JoinGraph where
  tables : List GraphTable
  edges : List GraphEdge
  source : Option String
deriving DecidableEq

namespace GraphTable

/-- The table as the catalog knows it. -/
def reference (table : GraphTable) : TableRef :=
  ⟨table.schema, table.name⟩

/-- The columns of the table, qualified by its name. -/
def columnRefs (table : GraphTable) : List ColumnRef :=
  table.columns.map (.qualified table.name)

/-- The operator that reads the table. -/
def scan (table : GraphTable) : Operator :=
  .logical (.scan table.reference table.columnRefs none)

end GraphTable

/-- Why a join graph is turned down. -/
inductive GraphError where
  | noTables
  | repeatedTable (schema name : String)
  | repeatedId (id : String)
  | unknownId (id : String)
  | selfJoin (id : String)
  | unknownJoinType (type : String)
  | fixedOrder (type : String) (table : String)
  | conflictingTypes (first second : JoinType) (table : String)
deriving DecidableEq

/-- The message with which a join graph is turned down. -/
def GraphError.message : GraphError → String
  | .noTables => "join graph has no tables"
  | .repeatedTable schema name => s!"table {schema}.{name} listed twice"
  | .repeatedId id => s!"duplicate table id {id}"
  | .unknownId id => s!"unknown table id {id}"
  | .selfJoin id => s!"edge joins table {id} with itself"
  | .unknownJoinType type => s!"unknown join type {type}"
  | .fixedOrder type table => s!"{type} edge must list {table} second"
  | .conflictingTypes first second table =>
      "conflicting join types " ++ first.text ++ " and " ++ second.text ++ s!" for table {table}"

namespace JoinType

/-- The join type of a name in upper case. -/
def ofUpperCase? : String → Option JoinType
  | "INNER" => some .inner
  | "LEFT" => some .left
  | "RIGHT" => some .right
  | "FULL" => some .full
  | "SEMI" => some .semi
  | "ANTI" => some .anti
  | "CROSS" => some .cross
  | _ => none

/-- The join type of a name. -/
def parse (name : String) : Except GraphError JoinType :=
  match ofUpperCase? (Text.upperCase name) with
  | some type => .ok type
  | none => .error (.unknownJoinType (Text.upperCase name))

/-- The type of the same join with its inputs exchanged, if there is one. -/
def exchanged? : JoinType → Option JoinType
  | .left => some .right
  | .right => some .left
  | .semi | .anti => none
  | type => some type

end JoinType

end Cascades
