import Cascades.Operator.Text
import Cascades.Scalar.Json

/-!
# Operators as JSON

An operator is an object with one field, named for its being logical or physical, that holds another
object with one field, named for its kind. Only the predicate of a scan may be left out.
-/

namespace Cascades

/-- The names of the types of joins. -/
def JoinType.names : List (String × JoinType) :=
  [.inner, .left, .right, .full, .semi, .anti, .cross].map fun type => (type.text, type)

/-- The names of the build sides. -/
def BuildSide.names : List (String × BuildSide) :=
  [.left, .right].map fun side => (side.text, side)

/-- The names of the aggregate functions. -/
def AggregateFunction.names : List (String × AggregateFunction) :=
  [("Count", .count), ("Sum", .sum), ("Avg", .avg), ("Min", .min), ("Max", .max)]

namespace Aggregate

def toJson (aggregate : Aggregate) : Json :=
  .object [("func", .ofNamed AggregateFunction.names aggregate.function),
    ("arg", aggregate.argument.toJson), ("distinct", .bool aggregate.distinct)]

def ofJson? (json : Json) : Option Aggregate := do
  let function ← json.required "func" (Json.named? AggregateFunction.names)
  let argument ← json.required "arg" Scalar.ofJson?
  let distinct ← json.required "distinct" Json.bool?
  return ⟨function, argument, distinct⟩

end Aggregate

namespace SortKey

def toJson (key : SortKey) : Json :=
  .object [("expr", key.scalar.toJson), ("ascending", .bool key.ascending),
    ("nulls_first", .bool key.nullsFirst)]

def ofJson? (json : Json) : Option SortKey := do
  let scalar ← json.required "expr" Scalar.ofJson?
  let ascending ← json.required "ascending" Json.bool?
  let nullsFirst ← json.required "nulls_first" Json.bool?
  return ⟨scalar, ascending, nullsFirst⟩

end SortKey

/-! ### The payloads that logical and physical operators share -/

namespace Payload

def scan (table : TableRef) (columns : List ColumnRef) (predicate : Option Scalar) : Json :=
  .object [("table", table.toJson), ("columns", .ofList ColumnRef.toJson columns),
    ("predicate", .ofOption Scalar.toJson predicate)]

def scan? (json : Json) : Option (TableRef × List ColumnRef × Option Scalar) := do
  let table ← json.required "table" TableRef.ofJson?
  let columns ← json.required "columns" (Json.list? ColumnRef.ofJson?)
  let predicate ← json.optional "predicate" Scalar.ofJson?
  return (table, columns, predicate)

def filter (predicate : Scalar) : Json :=
  .object [("predicate", predicate.toJson)]

def filter? (json : Json) : Option Scalar :=
  json.required "predicate" Scalar.ofJson?

def project (scalars : List Scalar) (aliases : List String) : Json :=
  .object [("exprs", .ofList Scalar.toJson scalars), ("aliases", .ofList .string aliases)]

def project? (json : Json) : Option (List Scalar × List String) := do
  let scalars ← json.required "exprs" (Json.list? Scalar.ofJson?)
  let aliases ← json.required "aliases" (Json.list? Json.string?)
  return (scalars, aliases)

def join (type : JoinType) (condition : Scalar) : Json :=
  .object [("join_type", .string type.text), ("condition", condition.toJson)]

def join? (json : Json) : Option (JoinType × Scalar) := do
  let type ← json.required "join_type" (Json.named? JoinType.names)
  let condition ← json.required "condition" Scalar.ofJson?
  return (type, condition)

def hashJoin (type : JoinType) (build : BuildSide) (condition : Scalar) : Json :=
  .object [("join_type", .string type.text), ("build_side", .string build.text),
    ("condition", condition.toJson)]

def hashJoin? (json : Json) : Option (JoinType × BuildSide × Scalar) := do
  let (type, condition) ← join? json
  let build ← json.required "build_side" (Json.named? BuildSide.names)
  return (type, build, condition)

def aggregate (keys : List Scalar) (aggregates : List Aggregate) : Json :=
  .object [("group_by", .ofList Scalar.toJson keys),
    ("aggregates", .ofList Aggregate.toJson aggregates)]

def aggregate? (json : Json) : Option (List Scalar × List Aggregate) := do
  let keys ← json.required "group_by" (Json.list? Scalar.ofJson?)
  let aggregates ← json.required "aggregates" (Json.list? Aggregate.ofJson?)
  return (keys, aggregates)

def sort (order : List SortKey) : Json :=
  .object [("order", .ofList SortKey.toJson order)]

def sort? (json : Json) : Option (List SortKey) :=
  json.required "order" (Json.list? SortKey.ofJson?)

def limit (offset count : UInt64) : Json :=
  .object [("offset", .ofNat offset.toNat), ("count", .ofNat count.toNat)]

def limit? (json : Json) : Option (UInt64 × UInt64) := do
  let offset ← json.required "offset" Json.word?
  let count ← json.required "count" Json.word?
  return (UInt64.ofNat offset, UInt64.ofNat count)

end Payload

namespace LogicalOperator

/-- The payload of an operator. -/
def payload : LogicalOperator → Json
  | .scan table columns predicate => Payload.scan table columns predicate
  | .filter predicate => Payload.filter predicate
  | .project scalars aliases => Payload.project scalars aliases
  | .join type condition => Payload.join type condition
  | .aggregate keys aggregates => Payload.aggregate keys aggregates
  | .sort order => Payload.sort order
  | .limit offset count => Payload.limit offset count

def toJson (operator : LogicalOperator) : Json :=
  .object [(operator.kind.text, operator.payload)]

/-- The operator of a kind with a payload. -/
def ofPayload? (kind : String) (json : Json) : Option LogicalOperator :=
  match kind with
  | "Scan" => (Payload.scan? json).map fun (table, columns, predicate) =>
      .scan table columns predicate
  | "Filter" => (Payload.filter? json).map .filter
  | "Project" => (Payload.project? json).map fun (scalars, aliases) => .project scalars aliases
  | "Join" => (Payload.join? json).map fun (type, condition) => .join type condition
  | "Aggregate" => (Payload.aggregate? json).map fun (keys, aggregates) =>
      .aggregate keys aggregates
  | "Sort" => (Payload.sort? json).map .sort
  | "Limit" => (Payload.limit? json).map fun (offset, count) => .limit offset count
  | _ => none

def ofJson? (json : Json) : Option LogicalOperator := do
  let (kind, payload) ← json.tagged?
  ofPayload? kind payload

end LogicalOperator

namespace PhysicalOperator

/-- The payload of an operator. -/
def payload : PhysicalOperator → Json
  | .seqScan table columns predicate => Payload.scan table columns predicate
  | .filter predicate => Payload.filter predicate
  | .project scalars aliases => Payload.project scalars aliases
  | .hashJoin type build condition => Payload.hashJoin type build condition
  | .mergeJoin type condition => Payload.join type condition
  | .nestedLoopJoin type condition => Payload.join type condition
  | .hashAggregate keys aggregates => Payload.aggregate keys aggregates
  | .streamAggregate keys aggregates => Payload.aggregate keys aggregates
  | .sort order => Payload.sort order
  | .limit offset count => Payload.limit offset count

def toJson (operator : PhysicalOperator) : Json :=
  .object [(operator.kind.text, operator.payload)]

/-- The operator of a kind with a payload. -/
def ofPayload? (kind : String) (json : Json) : Option PhysicalOperator :=
  match kind with
  | "SeqScan" => (Payload.scan? json).map fun (table, columns, predicate) =>
      .seqScan table columns predicate
  | "Filter" => (Payload.filter? json).map .filter
  | "Project" => (Payload.project? json).map fun (scalars, aliases) => .project scalars aliases
  | "HashJoin" => (Payload.hashJoin? json).map fun (type, build, condition) =>
      .hashJoin type build condition
  | "MergeJoin" => (Payload.join? json).map fun (type, condition) => .mergeJoin type condition
  | "NestedLoopJoin" => (Payload.join? json).map fun (type, condition) =>
      .nestedLoopJoin type condition
  | "HashAggregate" => (Payload.aggregate? json).map fun (keys, aggregates) =>
      .hashAggregate keys aggregates
  | "StreamAggregate" => (Payload.aggregate? json).map fun (keys, aggregates) =>
      .streamAggregate keys aggregates
  | "SortOp" => (Payload.sort? json).map .sort
  | "Limit" => (Payload.limit? json).map fun (offset, count) => .limit offset count
  | _ => none

def ofJson? (json : Json) : Option PhysicalOperator := do
  let (kind, payload) ← json.tagged?
  ofPayload? kind payload

end PhysicalOperator

namespace Operator

def toJson : Operator → Json
  | .logical operator => .object [("Logical", operator.toJson)]
  | .physical operator => .object [("Physical", operator.toJson)]

def ofJson? (json : Json) : Option Operator := do
  match ← json.tagged? with
  | ("Logical", json) => (LogicalOperator.ofJson? json).map .logical
  | ("Physical", json) => (PhysicalOperator.ofJson? json).map .physical
  | _ => none

end Operator

end Cascades
