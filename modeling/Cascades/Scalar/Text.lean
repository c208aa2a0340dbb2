import Cascades.Decimal.Shortest
import Cascades.Scalar.Basic

/-!
# Text of scalar expressions

Expressions are shown in the manner of SQL. Only disjunctions are parenthesized, and a column shows
its table and name but not its index, so different expressions may have one text.
-/

namespace Cascades

/-- The text of a table, by which the catalog knows it. -/
def TableRef.text (table : TableRef) : String :=
  table.schema ++ "." ++ table.name

/-- The text of a column, which does not show its index. -/
def ColumnRef.text (reference : ColumnRef) : String :=
  match reference.table with
  | some table => table ++ "." ++ reference.name
  | none => reference.name

/-- The text of a constant. A string is not escaped in it. -/
def Literal.text : Literal → String
  | .null => "NULL"
  | .bool value => if value then "true" else "false"
  | .int64 value => toString value.toInt
  | .float64 value => value.text
  | .utf8 value => "'" ++ value ++ "'"
  | .date days => "DATE(" ++ toString days.toInt ++ ")"

/-- The sign of an operator between its operands. -/
def BinaryOperator.symbol : BinaryOperator → String
  | .eq => "="
  | .notEq => "<>"
  | .lt => "<"
  | .ltEq => "<="
  | .gt => ">"
  | .gtEq => ">="
  | .add => "+"
  | .sub => "-"
  | .mul => "*"
  | .div => "/"

/-- The text of a unary operator applied to an operand with the given text. -/
def UnaryOperator.apply (operator : UnaryOperator) (operand : String) : String :=
  match operator with
  | .not => "NOT " ++ operand
  | .neg => "-" ++ operand
  | .isNull => operand ++ " IS NULL"
  | .isNotNull => operand ++ " IS NOT NULL"

namespace Scalar

mutual

/-- The text of an expression. -/
def text : Scalar → String
  | .column reference => reference.text
  | .outer reference => "outer(" ++ reference.text ++ ")"
  | .literal value => value.text
  | .binary operator left right => left.text ++ " " ++ operator.symbol ++ " " ++ right.text
  | .unary operator operand => operator.apply operand.text
  | .call name arguments => name ++ "(" ++ ", ".intercalate (texts arguments) ++ ")"
  | .and parts => " AND ".intercalate (texts parts)
  | .or parts => "(" ++ " OR ".intercalate (texts parts) ++ ")"

/-- The texts of the expressions of a list. -/
def texts : List Scalar → List String
  | [] => []
  | scalar :: rest => scalar.text :: texts rest

end

end Scalar

end Cascades
