import Cascades.Decimal.Shortest
import Cascades.Json.Basic
import Cascades.Scalar.Basic

/-!
# Scalar expressions as JSON

Every expression is an object with one field, named for its form. Numbers that are not finite have
no written form, and the finite ones are written as strings, so that no digit is lost on the way.
-/

namespace Cascades

namespace TableRef

def toJson (table : TableRef) : Json :=
  .object [("schema", .string table.schema), ("name", .string table.name)]

def ofJson? (json : Json) : Option TableRef := do
  return ⟨← json.required "schema" Json.string?, ← json.required "name" Json.string?⟩

end TableRef

namespace ColumnRef

def toJson (reference : ColumnRef) : Json :=
  .object [("table", .ofOption .string reference.table), ("name", .string reference.name),
    ("index", .ofNat reference.index.toNat)]

def ofJson? (json : Json) : Option ColumnRef := do
  let table ← json.optional "table" Json.string?
  let name ← json.required "name" Json.string?
  let index ← json.required "index" Json.id?
  return ⟨table, name, UInt32.ofNat index⟩

end ColumnRef

namespace Literal

def toJson : Literal → Json
  | .null => .string "Null"
  | .bool value => .object [("Bool", .bool value)]
  | .int64 value => .object [("Int64", .ofInt value.toInt)]
  | .float64 value =>
      .object [("Float64", if value.isFinite then .string value.text else .null)]
  | .utf8 value => .object [("Utf8", .string value)]
  | .date days => .object [("Date", .ofInt days.toInt)]

/-- The constant of a form, which is not null. -/
def ofTagged? (form : String) (value : Json) : Option Literal :=
  match form with
  | "Bool" => value.bool?.map .bool
  | "Int64" => (value.int? (UInt64.size / 2)).map fun number => .int64 (Int64.ofInt number)
  | "Float64" => value.binary64?.map .float64
  | "Utf8" => value.string?.map .utf8
  | "Date" => (value.int? (UInt32.size / 2)).map fun days => .date (Int32.ofInt days)
  | _ => none

def ofJson? : Json → Option Literal
  | .string "Null" => some .null
  | json => do
      let (form, value) ← json.tagged?
      ofTagged? form value

end Literal

/-- The names of the binary operators. -/
def BinaryOperator.names : List (String × BinaryOperator) :=
  [("Eq", .eq), ("NotEq", .notEq), ("Lt", .lt), ("LtEq", .ltEq), ("Gt", .gt), ("GtEq", .gtEq),
    ("Add", .add), ("Sub", .sub), ("Mul", .mul), ("Div", .div)]

/-- The names of the unary operators. -/
def UnaryOperator.names : List (String × UnaryOperator) :=
  [("Not", .not), ("Neg", .neg), ("IsNull", .isNull), ("IsNotNull", .isNotNull)]

namespace Scalar

mutual

def toJson : Scalar → Json
  | .column reference => .object [("Column", reference.toJson)]
  | .outer reference => .object [("OuterRef", reference.toJson)]
  | .literal value => .object [("Literal", value.toJson)]
  | .binary operator left right =>
      .object [("BinaryOp", .object [("op", .ofNamed BinaryOperator.names operator),
        ("left", left.toJson), ("right", right.toJson)])]
  | .unary operator operand =>
      .object [("UnaryOp", .object [("op", .ofNamed UnaryOperator.names operator),
        ("operand", operand.toJson)])]
  | .call name arguments =>
      .object [("Function", .object [("name", .string name), ("args", .array (toJsons arguments))])]
  | .and parts => .object [("And", .array (toJsons parts))]
  | .or parts => .object [("Or", .array (toJsons parts))]

def toJsons : List Scalar → List Json
  | [] => []
  | scalar :: rest => scalar.toJson :: toJsons rest

end

/-- The expression of a form, given how to read its parts. -/
def ofTagged? (part : Json → Option Scalar) (form : String) (value : Json) : Option Scalar :=
  match form with
  | "Column" => (ColumnRef.ofJson? value).map .column
  | "OuterRef" => (ColumnRef.ofJson? value).map .outer
  | "Literal" => (Literal.ofJson? value).map .literal
  | "BinaryOp" => do
      let operator ← value.required "op" (Json.named? BinaryOperator.names)
      let left ← value.required "left" part
      let right ← value.required "right" part
      return .binary operator left right
  | "UnaryOp" => do
      let operator ← value.required "op" (Json.named? UnaryOperator.names)
      let operand ← value.required "operand" part
      return .unary operator operand
  | "Function" => do
      let name ← value.required "name" Json.string?
      let arguments ← value.required "args" (Json.list? part)
      return .call name arguments
  | "And" => (value.list? part).map .and
  | "Or" => (value.list? part).map .or
  | _ => none

/-- The expression that a value of limited depth stands for. -/
def ofJsonWithin : (depth : Nat) → Json → Option Scalar
  | 0, _ => none
  | depth + 1, json => do
      let (form, value) ← json.tagged?
      ofTagged? (ofJsonWithin depth) form value

/-- The expression that a value stands for. -/
def ofJson? (json : Json) : Option Scalar :=
  ofJsonWithin json.depth json

end Scalar

end Cascades
