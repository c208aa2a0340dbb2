import Cascades.Proofs.Meaning.Conditions

/-!
# Interpretations of scalar expressions

An interpretation says what columns, constants, operators and functions mean, whatever the values are.
Expressions then have their values by recursion. Such an evaluation depends on no columns but those
that occur in an expression, and it does not tell numbers apart that are equal if the constants do not.
-/

namespace Cascades

/-- The meaning of the parts of scalar expressions. A column may be missing in a row. -/
structure Interpretation (Value : Type) where
  column : Option Value → Value
  outer : ColumnRef → Value
  literal : Literal → Value
  binary : BinaryOperator → Value → Value → Value
  unary : UnaryOperator → Value → Value
  call : String → List Value → Value
  and : List Value → Value
  or : List Value → Value
  isTrue : Value → Bool
  literal_normal : ∀ constant, literal constant.normal = literal constant
  isTrue_truth : isTrue (literal (.bool true)) = true
  isTrue_and : ∀ values, isTrue (and values) = values.all isTrue

namespace Interpretation

variable {Value : Type} (interpretation : Interpretation Value)

section Value

variable (row : Row Value)

mutual

/-- The value of an expression on a row. A column without a table is missing in every row. -/
def value : Scalar → Value
  | .column reference =>
      interpretation.column (reference.table.bind fun table => row table reference.name)
  | .outer reference => interpretation.outer reference
  | .literal constant => interpretation.literal constant
  | .binary operator left right => interpretation.binary operator (value left) (value right)
  | .unary operator operand => interpretation.unary operator (value operand)
  | .call name arguments => interpretation.call name (values arguments)
  | .and parts => interpretation.and (values parts)
  | .or parts => interpretation.or (values parts)

/-- The values of the expressions of a list. -/
def values : List Scalar → List Value
  | [] => []
  | scalar :: rest => value scalar :: values rest

end

theorem values_eq_map (scalars : List Scalar) :
    interpretation.values row scalars = scalars.map (interpretation.value row) := by
  induction scalars with
  | nil => rfl
  | cons scalar rest ih => rw [values, List.map_cons, ih]

mutual

/-- Numbers may be replaced by equal ones. -/
theorem value_normal : (scalar : Scalar) →
    interpretation.value row scalar.normal = interpretation.value row scalar
  | .column _ => rfl
  | .outer _ => rfl
  | .literal constant => interpretation.literal_normal constant
  | .binary _ left right => by
      rw [Scalar.normal, value, value, value_normal left, value_normal right]
  | .unary _ operand => by rw [Scalar.normal, value, value, value_normal operand]
  | .call _ arguments => by rw [Scalar.normal, value, value, values_normals arguments]
  | .and parts => by rw [Scalar.normal, value, value, values_normals parts]
  | .or parts => by rw [Scalar.normal, value, value, values_normals parts]

theorem values_normals : (scalars : List Scalar) →
    interpretation.values row (Scalar.normals scalars) = interpretation.values row scalars
  | [] => rfl
  | scalar :: rest => by
      rw [Scalar.normals, values, values, value_normal scalar, values_normals rest]

end

end Value

/-- Two rows have the same values in qualified columns. -/
def Agree (columns : List ColumnRef) (row other : Row Value) : Prop :=
  ∀ column ∈ columns, ∃ table, column.table = some table ∧
    row table column.name = other table column.name

theorem Agree.left {columns others : List ColumnRef} {row other : Row Value}
    (agree : Agree (columns ++ others) row other) : Agree columns row other :=
  fun column column_mem => agree column (List.mem_append_left others column_mem)

theorem Agree.right {columns others : List ColumnRef} {row other : Row Value}
    (agree : Agree (columns ++ others) row other) : Agree others row other :=
  fun column column_mem => agree column (List.mem_append_right columns column_mem)

section Local

variable {row other : Row Value}

mutual

/-- The value of an expression depends on no columns but its own. -/
theorem value_local : (scalar : Scalar) → Agree scalar.columns row other →
    interpretation.value row scalar = interpretation.value other scalar
  | .column reference, agree => by
      rcases agree reference (by rw [Scalar.columns]; exact List.mem_singleton_self _) with
        ⟨table, table_eq, same⟩
      rw [value, value, table_eq, Option.bind_some, Option.bind_some, same]
  | .outer _, _ => rfl
  | .literal _, _ => rfl
  | .binary _ left right, agree => by
      rw [Scalar.columns] at agree
      rw [value, value, value_local left agree.left, value_local right agree.right]
  | .unary _ operand, agree => by
      rw [Scalar.columns] at agree
      rw [value, value, value_local operand agree]
  | .call _ arguments, agree => by
      rw [Scalar.columns] at agree
      rw [value, value, values_local arguments agree]
  | .and parts, agree => by
      rw [Scalar.columns] at agree
      rw [value, value, values_local parts agree]
  | .or parts, agree => by
      rw [Scalar.columns] at agree
      rw [value, value, values_local parts agree]

theorem values_local : (scalars : List Scalar) → Agree (Scalar.columnsOf scalars) row other →
    interpretation.values row scalars = interpretation.values other scalars
  | [], _ => rfl
  | scalar :: rest, agree => by
      rw [Scalar.columnsOf] at agree
      rw [values, values, value_local scalar agree.left, values_local rest agree.right]

end

end Local

/-- Every interpretation gives an evaluation. -/
def scalars : ScalarSemantics Value where
  value scalar row := interpretation.value row scalar
  isTrue := interpretation.isTrue
  value_same := by
    intro scalar other same
    funext row
    rw [← interpretation.value_normal row scalar, Scalar.same_iff.mp same,
      interpretation.value_normal row other]
  value_local := fun _ agree => interpretation.value_local _ agree
  isTrue_truth := fun _ => interpretation.isTrue_truth
  isTrue_and := by
    intro parts row
    rw [value, isTrue_and, values_eq_map, List.all_map]
    rfl

/-! ## Integers and null -/

/-- A comparison or an operation of two integers. Nothing can be divided by zero. -/
def ofIntegers (left right : Int) : BinaryOperator → Option Int
  | .eq => some (if left = right then 1 else 0)
  | .notEq => some (if left = right then 0 else 1)
  | .lt => some (if left < right then 1 else 0)
  | .ltEq => some (if left ≤ right then 1 else 0)
  | .gt => some (if right < left then 1 else 0)
  | .gtEq => some (if right ≤ left then 1 else 0)
  | .add => some (left + right)
  | .sub => some (left - right)
  | .mul => some (left * right)
  | .div => if right = 0 then none else some (left.tdiv right)

/--
Integers with null, in three-valued logic: zero is false and all other numbers are true. Missing columns,
constants that are no integers and the values of functions are null.
-/
def integers : Interpretation (Option Int) where
  column := Option.join
  outer := fun _ => none
  literal
    | .bool value => some (if value then 1 else 0)
    | .int64 value => some value.toInt
    | .date days => some days.toInt
    | _ => none
  binary operator left right := left.bind fun left => right.bind fun right => ofIntegers left right operator
  unary
    | .not, operand => operand.map fun value => if value = 0 then 1 else 0
    | .neg, operand => operand.map fun value => -value
    | .isNull, operand => some (if operand = none then 1 else 0)
    | .isNotNull, operand => some (if operand = none then 0 else 1)
  call := fun _ _ => none
  and values :=
    if values.all fun value => value.any (· ≠ 0) then some 1
    else if some 0 ∈ values then some 0 else none
  or values :=
    if values.any fun value => value.any (· ≠ 0) then some 1
    else if none ∈ values then none else some 0
  isTrue value := value.any (· ≠ 0)
  literal_normal := by
    intro constant
    cases constant <;> rfl
  isTrue_truth := rfl
  isTrue_and := by
    intro values
    split
    · rename_i all
      rw [all]
      rfl
    · rename_i not_all
      rw [Bool.eq_false_iff.mpr not_all]
      split <;> rfl

end Interpretation

end Cascades
