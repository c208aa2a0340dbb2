import Cascades.Proofs.Meaning.Rows
import Cascades.Proofs.Scalar.Canonical

/-!
# The truth of conditions

An evaluation gives a scalar expression a value on each row. It does not tell expressions apart that
are the same, and depends on no columns but those that an expression without outer columns has. A
condition is true if all its conjuncts are, so that taking it apart, sorting its conjuncts and dropping
repeats does not change on which rows it is true.
-/

namespace Cascades

namespace Scalar

/-- Every local column is qualified by the name of its table. -/
def Qualified (scalar : Scalar) : Prop :=
  ∀ column ∈ scalar.columns, ∃ table, column.table = some table

mutual

/-- A condition has the columns of all its conjuncts. -/
theorem columns_eq_flatMap : (scalar : Scalar) → scalar.columns = scalar.conjuncts.flatMap columns
  | .and parts => by rw [columns, conjuncts, columnsOf_eq_flatMap_conjuncts parts]
  | .column _ | .outer _ | .literal _ | .binary .. | .unary .. | .call .. | .or _ => by
      simp [conjuncts]

theorem columnsOf_eq_flatMap_conjuncts : (scalars : List Scalar) →
    columnsOf scalars = (conjunctsOf scalars).flatMap columns
  | [] => rfl
  | scalar :: rest => by
      rw [columnsOf, conjunctsOf, List.flatMap_append, ← columns_eq_flatMap scalar,
        ← columnsOf_eq_flatMap_conjuncts rest]

end

section Canonical

variable {scalars : List Scalar} (atoms : ∀ scalar ∈ scalars, scalar.conjuncts = [scalar])
include atoms

/-- Canonical order adds no conjunct, except truth where there is none. -/
theorem mem_conjuncts_canonicalConjunction {conjunct : Scalar}
    (conjunct_mem : conjunct ∈ (canonicalConjunction scalars).conjuncts) :
    conjunct ∈ scalars ∨ conjunct = truth := by
  rw [conjuncts_canonicalConjunction atoms] at conjunct_mem
  split at conjunct_mem
  · exact .inr (List.mem_singleton.mp conjunct_mem)
  · exact .inl (mem_of_mem_ordered conjunct_mem)

theorem columns_canonicalConjunction {column : ColumnRef}
    (column_mem : column ∈ (canonicalConjunction scalars).columns) :
    ∃ scalar ∈ scalars, column ∈ scalar.columns := by
  rw [columns_eq_flatMap] at column_mem
  rcases List.mem_flatMap.mp column_mem with ⟨conjunct, conjunct_mem, column_mem⟩
  rcases mem_conjuncts_canonicalConjunction atoms conjunct_mem with scalar_mem | rfl
  · exact ⟨conjunct, scalar_mem, column_mem⟩
  · cases column_mem

end Canonical

mutual

/-- A condition has an outer column if one of its conjuncts does. -/
theorem hasOuterRefs_eq_any : (scalar : Scalar) →
    scalar.hasOuterRefs = scalar.conjuncts.any hasOuterRefs
  | .and parts => by rw [hasOuterRefs, conjuncts, anyOuterRefs_eq_any_conjuncts parts]
  | .column _ | .outer _ | .literal _ | .binary .. | .unary .. | .call .. | .or _ => by
      simp [conjuncts]

theorem anyOuterRefs_eq_any_conjuncts : (scalars : List Scalar) →
    anyOuterRefs scalars = (conjunctsOf scalars).any hasOuterRefs
  | [] => rfl
  | scalar :: rest => by
      rw [anyOuterRefs, conjunctsOf, List.any_append, ← hasOuterRefs_eq_any scalar,
        ← anyOuterRefs_eq_any_conjuncts rest]

end

section Conjuncts

variable {scalar conjunct : Scalar} (conjunct_mem : conjunct ∈ scalar.conjuncts)
include conjunct_mem

theorem Qualified.of_mem_conjuncts (qualified : scalar.Qualified) : conjunct.Qualified := by
  intro column column_mem
  refine qualified column ?_
  rw [columns_eq_flatMap]
  exact List.mem_flatMap.mpr ⟨conjunct, conjunct_mem, column_mem⟩

theorem hasOuterRefs_of_mem_conjuncts (local_ : scalar.hasOuterRefs = false) :
    conjunct.hasOuterRefs = false := by
  rw [hasOuterRefs_eq_any] at local_
  exact Bool.eq_false_iff.mpr (List.any_eq_false.mp local_ conjunct conjunct_mem)

end Conjuncts

end Scalar

/-- An evaluation of scalar expressions, and which of its values count as true. -/
structure ScalarSemantics (Value : Type) where
  value : Scalar → Row Value → Value
  isTrue : Value → Bool
  value_same : ∀ {scalar other}, scalar.same other = true → value scalar = value other
  value_local : ∀ {scalar} {row other : Row Value}, scalar.hasOuterRefs = false →
    (∀ column ∈ scalar.columns, ∃ table, column.table = some table ∧
      row table column.name = other table column.name) → value scalar row = value scalar other
  isTrue_truth : ∀ row, isTrue (value .truth row) = true
  isTrue_and : ∀ parts row, isTrue (value (.and parts) row) = parts.all fun part =>
    isTrue (value part row)

namespace ScalarSemantics

variable {Value : Type} (semantics : ScalarSemantics Value)

/-- Whether an expression is true of a row. -/
def holds (scalar : Scalar) (row : Row Value) : Bool :=
  semantics.isTrue (semantics.value scalar row)

/-- Whether all conjuncts of a condition are true of a row. -/
def keeps (condition : Scalar) (row : Row Value) : Bool :=
  condition.conjuncts.all fun conjunct => semantics.holds conjunct row

mutual

/-- A condition is true if its conjuncts are. -/
theorem holds_eq_keeps : (condition : Scalar) → (row : Row Value) →
    semantics.holds condition row = semantics.keeps condition row
  | .and parts, row => by
      rw [holds, isTrue_and, keeps, Scalar.conjuncts, ← all_holds parts row]
      rfl
  | .column _, _ | .outer _, _ | .literal _, _ | .binary .., _ | .unary .., _ | .call .., _
  | .or _, _ => by
      simp [keeps, Scalar.conjuncts]

theorem all_holds : (parts : List Scalar) → (row : Row Value) →
    (parts.all fun part => semantics.holds part row) =
      (Scalar.conjunctsOf parts).all fun conjunct => semantics.holds conjunct row
  | [], _ => rfl
  | part :: rest, row => by
      rw [List.all_cons, Scalar.conjunctsOf, List.all_append, holds_eq_keeps part row,
        all_holds rest row]
      rfl

end

variable {semantics} {scalars : List Scalar} {row other : Row Value}

theorem keeps_iff {condition : Scalar} : semantics.keeps condition row = true ↔
    ∀ conjunct ∈ condition.conjuncts, semantics.holds conjunct row = true :=
  List.all_eq_true

theorem holds_conjunction : semantics.holds (.conjunction scalars) row = true ↔
    ∀ scalar ∈ scalars, semantics.holds scalar row = true := by
  rcases scalars with _ | ⟨first, _ | ⟨second, rest⟩⟩
  · simp [Scalar.conjunction, holds, semantics.isTrue_truth]
  · simp [Scalar.conjunction]
  · simp [Scalar.conjunction, holds, semantics.isTrue_and]

/-- Canonical order keeps a condition true on the same rows. -/
theorem keeps_canonicalConjunction : semantics.keeps (.canonicalConjunction scalars) row = true ↔
    ∀ scalar ∈ scalars, semantics.holds scalar row = true := by
  rw [← holds_eq_keeps, Scalar.canonicalConjunction, ← Scalar.ordered, holds_conjunction]
  constructor
  · intro ordered scalar scalar_mem
    rcases Scalar.exists_same_ordered scalar_mem with ⟨kept, kept_mem, same⟩
    rw [holds, ← semantics.value_same same]
    exact ordered kept kept_mem
  · exact fun all scalar scalar_mem => all scalar (Scalar.mem_of_mem_ordered scalar_mem)

/-- Rows that agree on the tables of an expression are alike to it. -/
theorem holds_congr {scalar : Scalar} (local_ : scalar.hasOuterRefs = false)
    (qualified : scalar.Qualified) (agree : ∀ table ∈ scalar.tables, row table = other table) :
    semantics.holds scalar row = semantics.holds scalar other := by
  rw [holds, holds]
  refine congrArg semantics.isTrue (semantics.value_local local_ ?_)
  intro column column_mem
  rcases qualified column column_mem with ⟨table, table_eq⟩
  have table_mem : table ∈ scalar.tables := List.mem_filterMap.mpr ⟨column, column_mem, table_eq⟩
  exact ⟨table, table_eq, congrFun (agree table table_mem) column.name⟩

end ScalarSemantics

end Cascades
