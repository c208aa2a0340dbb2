import Cascades.Decimal.Binary64

/-!
# Scalar expressions

Predicates, projections and join conditions are scalar expressions over columns. A column is either
local, a column of some input of the operator that carries the expression, or an outer one, a column
of an enclosing query. A conjunction holds any number of parts, and so does a disjunction; neither
needs to be flat.
-/

namespace Cascades

/-- A table of the catalog. -/
structure TableRef where
  schema : String
  name : String
deriving DecidableEq

/-- A column, qualified by the name of its table or not. -/
structure ColumnRef where
  table : Option String
  name : String
  index : UInt32
deriving DecidableEq

/-- The first column index of a table's column known by name alone. -/
def ColumnRef.qualified (table name : String) : ColumnRef :=
  ⟨some table, name, 0⟩

/-- A constant. A date counts days from 1970-01-01. -/
inductive Literal where
  | null
  | bool (value : Bool)
  | int64 (value : Int64)
  | float64 (value : Binary64)
  | utf8 (value : String)
  | date (days : Int32)
deriving DecidableEq

/-- Comparisons and arithmetic. -/
inductive BinaryOperator where
  | eq | notEq | lt | ltEq | gt | gtEq | add | sub | mul | div
deriving DecidableEq

/-- Negations, and tests for the absence of a value. -/
inductive UnaryOperator where
  | not | neg | isNull | isNotNull
deriving DecidableEq

/-- A scalar expression. -/
inductive Scalar where
  | column (reference : ColumnRef)
  | outer (reference : ColumnRef)
  | literal (value : Literal)
  | binary (operator : BinaryOperator) (left right : Scalar)
  | unary (operator : UnaryOperator) (operand : Scalar)
  | call (name : String) (arguments : List Scalar)
  | and (parts : List Scalar)
  | or (parts : List Scalar)

namespace Scalar

/-- The constant that stands for the empty condition. -/
def truth : Scalar :=
  .literal (.bool true)

/-- The equality of two qualified columns. -/
def equality (leftTable leftColumn rightTable rightColumn : String) : Scalar :=
  .binary .eq (.column (.qualified leftTable leftColumn))
    (.column (.qualified rightTable rightColumn))

mutual

/-- The local columns that occur in an expression, in the order of their occurrences. -/
def columns : Scalar → List ColumnRef
  | .column reference => [reference]
  | .outer _ => []
  | .literal _ => []
  | .binary _ left right => left.columns ++ right.columns
  | .unary _ operand => operand.columns
  | .call _ arguments => columnsOf arguments
  | .and parts => columnsOf parts
  | .or parts => columnsOf parts

/-- The local columns in the expressions of a list. -/
def columnsOf : List Scalar → List ColumnRef
  | [] => []
  | scalar :: rest => scalar.columns ++ columnsOf rest

end

mutual

/-- Whether a column of an enclosing query occurs. -/
def hasOuterRefs : Scalar → Bool
  | .column _ => false
  | .outer _ => true
  | .literal _ => false
  | .binary _ left right => left.hasOuterRefs || right.hasOuterRefs
  | .unary _ operand => operand.hasOuterRefs
  | .call _ arguments => anyOuterRefs arguments
  | .and parts => anyOuterRefs parts
  | .or parts => anyOuterRefs parts

/-- Whether a column of an enclosing query occurs in a list. -/
def anyOuterRefs : List Scalar → Bool
  | [] => false
  | scalar :: rest => scalar.hasOuterRefs || anyOuterRefs rest

end

/-- The names of the tables that qualify the local columns of an expression. -/
def tables (scalar : Scalar) : List String :=
  scalar.columns.filterMap ColumnRef.table

theorem anyOuterRefs_eq_any (scalars : List Scalar) :
    anyOuterRefs scalars = scalars.any hasOuterRefs := by
  induction scalars with
  | nil => rfl
  | cons scalar rest ih => simp [anyOuterRefs, ih]

end Scalar

end Cascades
