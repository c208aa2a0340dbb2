import Mathlib.Data.Multiset.Bind
import Mathlib.Data.Multiset.Filter

/-!
# Rows and bags

A row maps columns, each given by the name of its table and by its own name, to values. Two rows are
merged into one that has the columns of both, and the product of two bags merges every row of the one
with every row of the other. A product never depends on how its factors are grouped, nor on their order
if no table has columns in both.
-/

namespace Cascades

/-- The values of some columns, by the names of the table and of the column. -/
abbrev Row (Value : Type) : Type :=
  String → String → Option Value

/-- Rows with their multiplicities. -/
abbrev Bag (Value : Type) : Type :=
  Multiset (Row Value)

variable {Value : Type}

namespace Row

/-- The columns of both rows. The first one decides on what both have. -/
def merge (first second : Row Value) : Row Value :=
  fun table column => (first table column).or (second table column)

/-- All columns of the row are of the given tables. -/
def Within (row : Row Value) (tables : List String) : Prop :=
  ∀ table column, row table column ≠ none → table ∈ tables

variable {first second : Row Value} {tables others : List String}

theorem merge_assoc (first second third : Row Value) :
    (first.merge second).merge third = first.merge (second.merge third) := by
  funext table column
  exact Option.or_assoc

/-- A row has no columns of other tables. -/
theorem Within.eq_none (within : first.Within tables) {table : String} (table_notMem : table ∉ tables)
    (column : String) : first table column = none :=
  Classical.byContradiction fun found => table_notMem (within table column found)

theorem Within.mono (within : first.Within tables) (subset : tables ⊆ others) : first.Within others :=
  fun table column found => subset (within table column found)

theorem Within.merge (first_within : first.Within tables) (second_within : second.Within tables) :
    (first.merge second).Within tables := by
  intro table column found
  cases first_value : first table column with
  | some value => exact first_within table column (by rw [first_value]; exact Option.some_ne_none value)
  | none =>
      rw [Row.merge, first_value, Option.none_or] at found
      exact second_within table column found

theorem merge_of_notMem_right (second_within : second.Within tables) {table : String}
    (table_notMem : table ∉ tables) : first.merge second table = first table := by
  funext column
  rw [merge, second_within.eq_none table_notMem, Option.or_none]

theorem merge_of_notMem_left (first_within : first.Within tables) {table : String}
    (table_notMem : table ∉ tables) : first.merge second table = second table := by
  funext column
  rw [merge, first_within.eq_none table_notMem, Option.none_or]

theorem merge_comm (first_within : first.Within tables) (second_within : second.Within others)
    (disjoint : tables.Disjoint others) : first.merge second = second.merge first := by
  funext table
  by_cases table_mem : table ∈ tables
  · have table_notMem : table ∉ others := fun other_mem => disjoint table_mem other_mem
    rw [merge_of_notMem_right second_within table_notMem, merge_of_notMem_left second_within table_notMem]
  · rw [merge_of_notMem_left first_within table_mem, merge_of_notMem_right first_within table_mem]

end Row

namespace Bag

/-- Each row of the first bag merged with each row of the second one. -/
def product (first second : Bag Value) : Bag Value :=
  first.bind fun row => second.map row.merge

/-- All columns of all rows are of the given tables. -/
def Within (bag : Bag Value) (tables : List String) : Prop :=
  ∀ row ∈ bag, row.Within tables

variable {first second third : Bag Value} {tables others : List String}

theorem mem_product {row : Row Value} :
    row ∈ product first second ↔ ∃ left ∈ first, ∃ right ∈ second, left.merge right = row := by
  simp only [product, Multiset.mem_bind, Multiset.mem_map]

theorem Within.mono (within : Within first tables) (subset : tables ⊆ others) : Within first others :=
  fun row row_mem => (within row row_mem).mono subset

theorem Within.product (first_within : Within first tables) (second_within : Within second tables) :
    Within (first.product second) tables := by
  intro row row_mem
  rcases mem_product.mp row_mem with ⟨left, left_mem, right, right_mem, rfl⟩
  exact (first_within left left_mem).merge (second_within right right_mem)

theorem Within.filter (within : Within first tables) (keeps : Row Value → Prop) [DecidablePred keeps] :
    Within (first.filter keeps) tables :=
  fun row row_mem => within row (Multiset.mem_of_mem_filter row_mem)

theorem product_assoc (first second third : Bag Value) :
    product (product first second) third = product first (product second third) := by
  simp only [product, Multiset.bind_assoc, Multiset.bind_map, Multiset.map_bind, Multiset.map_map,
    Function.comp_def, Row.merge_assoc]

theorem product_comm (first_within : Within first tables) (second_within : Within second others)
    (disjoint : tables.Disjoint others) : product first second = product second first := by
  rw [product, product, ← Multiset.bind_map_comm]
  refine Multiset.bind_congr fun right right_mem => Multiset.map_congr rfl fun left left_mem => ?_
  exact Row.merge_comm (first_within left left_mem) (second_within right right_mem) disjoint

/-- A filter of a factor is a filter of the product, if it does not look at the other factor. -/
theorem product_filter_left {keeps : Row Value → Prop} (keepsMerged : Row Value → Prop)
    [DecidablePred keeps] [DecidablePred keepsMerged]
    (same : ∀ left ∈ first, ∀ right ∈ second, keepsMerged (left.merge right) ↔ keeps left) :
    product (first.filter keeps) second = (product first second).filter keepsMerged := by
  rw [product, product, Multiset.bind_filter, Multiset.filter_bind]
  refine Multiset.bind_congr fun left left_mem => ?_
  rw [Multiset.filter_map]
  split
  · rename_i kept
    have all : second.filter (keepsMerged ∘ left.merge) = second :=
      Multiset.filter_eq_self.mpr fun right right_mem => (same left left_mem right right_mem).mpr kept
    rw [all]
  · rename_i dropped
    have none : second.filter (keepsMerged ∘ left.merge) = 0 :=
      Multiset.filter_eq_nil.mpr fun right right_mem merged_kept =>
        dropped ((same left left_mem right right_mem).mp merged_kept)
    rw [none, Multiset.map_zero]

theorem product_filter_right {keeps : Row Value → Prop} (keepsMerged : Row Value → Prop)
    [DecidablePred keeps] [DecidablePred keepsMerged]
    (same : ∀ left ∈ first, ∀ right ∈ second, keepsMerged (left.merge right) ↔ keeps right) :
    product first (second.filter keeps) = (product first second).filter keepsMerged := by
  rw [product, product, Multiset.filter_bind]
  refine Multiset.bind_congr fun left left_mem => ?_
  rw [Multiset.filter_map]
  refine congrArg (Multiset.map left.merge) (Multiset.filter_congr fun right right_mem => ?_)
  exact (same left left_mem right right_mem).symm

end Bag

end Cascades
