import Cascades.Scalar.Text

/-!
# Catalog

The catalog knows the columns of some tables. A table is looked up by the text of its reference, so
two tables whose texts agree are one table to the catalog.
-/

namespace Cascades

/-- The known tables, by their text, with their columns. -/
structure Catalog where
  tables : List (String × List ColumnRef)

namespace Catalog

/-- The catalog that knows no table. -/
def empty : Catalog := ⟨[]⟩

/-- Adds a table, in place of one with the same text. -/
def add (catalog : Catalog) (table : TableRef) (columns : List ColumnRef) : Catalog :=
  ⟨(table.text, columns) :: catalog.tables⟩

/-- The columns of a table, if it is known. -/
def columns? (catalog : Catalog) (table : TableRef) : Option (List ColumnRef) :=
  catalog.tables.lookup table.text

/-- Whether a table is known. -/
def contains (catalog : Catalog) (table : TableRef) : Bool :=
  (catalog.columns? table).isSome

end Catalog

end Cascades
