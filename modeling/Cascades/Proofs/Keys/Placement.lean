import Cascades.Proofs.Keys.Tables
import Cascades.Proofs.Meaning.Conditions
import Cascades.Proofs.Rules.Outcomes

/-!
# Where conditions may stand

The columns of a condition are qualified by tables below the group of the join or the filter that has
it. Each transformation moves conditions in such a way that this stays true.

Whether they are tables below the inputs as well depends on the groups: this is asked where all
expressions of a group have the same tables below them. And only where in addition every equality of
columns in a join condition links the inputs of the join, and every one in a filter has all tables
below the filter, do transformations keep the links. So there are two demands, of which a memo may
meet none, the first one or both.
-/

namespace Cascades

namespace Scalar

/-- An equality of two columns, of a table on the one side and of a table on the other side. -/
def Links (left right : List String) (conjunct : Scalar) : Prop :=
  ∃ column other table another, conjunct = .binary .eq (.column column) (.column other) ∧
    column.table = some table ∧ other.table = some another ∧
      (table ∈ left ∧ another ∈ right ∨ table ∈ right ∧ another ∈ left)

variable {left right wideLeft wideRight : List String} {scalar conjunct : Scalar}

theorem Links.mono (links : conjunct.Links left right) (left_subset : left ⊆ wideLeft)
    (right_subset : right ⊆ wideRight) : conjunct.Links wideLeft wideRight := by
  rcases links with ⟨column, other, table, another, same, table_eq, another_eq, sides⟩
  refine ⟨column, other, table, another, same, table_eq, another_eq, ?_⟩
  exact sides.imp (And.imp (@left_subset table) (@right_subset another))
    (And.imp (@right_subset table) (@left_subset another))

theorem Links.symm (links : conjunct.Links left right) : conjunct.Links right left := by
  rcases links with ⟨column, other, table, another, same, table_eq, another_eq, sides⟩
  exact ⟨column, other, table, another, same, table_eq, another_eq, sides.symm⟩

theorem isEquality_iff : conjunct.isEquality = true ↔
    ∃ column other, conjunct = .binary .eq (.column column) (.column other) := by
  constructor
  · intro equality
    rw [isEquality.eq_def] at equality
    split at equality
    · exact ⟨_, _, rfl⟩
    · cases equality
  · rintro ⟨column, other, rfl⟩
    rfl

/-- An equality connects two inputs if its columns are of tables below them, one below each. -/
theorem connects_equality {moved last : List String} {column other : ColumnRef}
    {table another : String} (table_eq : column.table = some table)
    (another_eq : other.table = some another) :
    Rules.connects moved last (.binary .eq (.column column) (.column other)) = true ↔
      (table ∈ moved ∨ table ∈ last) ∧ (another ∈ moved ∨ another ∈ last) ∧
        (table ∈ moved ∨ another ∈ moved) ∧ (table ∈ last ∨ another ∈ last) := by
  simp [Rules.connects, tables, columns, table_eq, another_eq, and_assoc]

/-- Whether an equality links two inputs. -/
def linked (left right : List String) (conjunct : Scalar) : Bool :=
  conjunct.isEquality &&
    match conjunct.tables with
    | [table, another] =>
        left.contains table && right.contains another || right.contains table && left.contains another
    | _ => false

theorem linked_iff : conjunct.linked left right = true ↔ conjunct.Links left right := by
  constructor
  · intro linked_eq
    rw [linked, Bool.and_eq_true] at linked_eq
    rcases isEquality_iff.mp linked_eq.1 with ⟨column, other, rfl⟩
    have sides := linked_eq.2
    cases table_eq : column.table <;> cases another_eq : other.table <;>
      simp [tables, columns, table_eq, another_eq] at sides
    exact ⟨column, other, _, _, rfl, table_eq, another_eq, sides⟩
  · rintro ⟨column, other, table, another, rfl, table_eq, another_eq, sides⟩
    simpa [linked, isEquality, tables, columns, table_eq, another_eq] using sides

instance : Decidable (conjunct.Links left right) :=
  decidable_of_iff _ linked_iff

/-- An equality of columns with the given tables links these with each other. -/
theorem links_self {tables : List String} (equality : conjunct.isEquality = true)
    (qualified : ∀ column ∈ conjunct.columns, ∃ table, column.table = some table ∧ table ∈ tables) :
    conjunct.Links tables tables := by
  rcases isEquality_iff.mp equality with ⟨column, other, rfl⟩
  rcases qualified column (by simp [columns]) with ⟨table, table_eq, table_mem⟩
  rcases qualified other (by simp [columns]) with ⟨another, another_eq, another_mem⟩
  exact ⟨column, other, table, another, rfl, table_eq, another_eq, .inl ⟨table_mem, another_mem⟩⟩

/-- An equality links two inputs that have its tables, and have both some table but no other ones. -/
theorem links_of_tables (equality : conjunct.isEquality = true)
    (qualified : ∀ column ∈ conjunct.columns, ∃ table, column.table = some table ∧
      (table ∈ left ∨ table ∈ right))
    (left_subset : left ⊆ conjunct.tables) (right_subset : right ⊆ conjunct.tables)
    (left_some : left ≠ []) (right_some : right ≠ []) : conjunct.Links left right := by
  rcases isEquality_iff.mp equality with ⟨column, other, rfl⟩
  rcases qualified column (by simp [columns]) with ⟨table, table_eq, table_mem⟩
  rcases qualified other (by simp [columns]) with ⟨another, another_eq, another_mem⟩
  have tables_eq : (binary .eq (.column column) (.column other)).tables = [table, another] := by
    simp [tables, columns, table_eq, another_eq]
  rw [tables_eq] at left_subset right_subset
  rcases List.exists_mem_of_ne_nil left left_some with ⟨one, one_mem⟩
  rcases List.exists_mem_of_ne_nil right right_some with ⟨two, two_mem⟩
  have one_eq : one = table ∨ one = another := by simpa using left_subset one_mem
  have two_eq : two = table ∨ two = another := by simpa using right_subset two_mem
  refine ⟨column, other, table, another, rfl, table_eq, another_eq, ?_⟩
  rcases one_eq with rfl | rfl <;> rcases two_eq with rfl | rfl <;> tauto

/-- An equality that links two inputs, and only has tables of one of them and of another, links these. -/
theorem Links.of_connects {moved : List String} (links : conjunct.Links left right)
    (connects : Rules.connects moved right conjunct = true) : conjunct.Links moved right := by
  rcases links with ⟨column, other, table, another, rfl, table_eq, another_eq, -⟩
  refine ⟨column, other, table, another, rfl, table_eq, another_eq, ?_⟩
  rw [connects_equality table_eq another_eq] at connects
  tauto

/-- An equality that links two inputs, but not the moved part of the first one, links what stays. -/
theorem Links.of_not_connects {stay moved : List String} (links : conjunct.Links left right)
    (left_subset : left ⊆ stay ++ moved)
    (unconnected : Rules.connects moved right conjunct = false) :
    conjunct.Links stay (moved ++ right) := by
  rcases links with ⟨column, other, table, another, rfl, table_eq, another_eq, sides⟩
  refine ⟨column, other, table, another, rfl, table_eq, another_eq, ?_⟩
  have apart := Bool.eq_false_iff.mp unconnected
  rw [Ne, connects_equality table_eq another_eq] at apart
  have parts {name : String} (name_mem : name ∈ left) : name ∈ stay ∨ name ∈ moved :=
    List.mem_append.mp (left_subset name_mem)
  simp only [List.mem_append]
  rcases sides with ⟨table_mem, another_mem⟩ | ⟨table_mem, another_mem⟩
  · have table_parts := parts table_mem
    tauto
  · have another_parts := parts another_mem
    tauto

theorem mem_columns_of_conjunct (conjunct_mem : conjunct ∈ scalar.conjuncts) {column : ColumnRef}
    (column_mem : column ∈ conjunct.columns) : column ∈ scalar.columns := by
  rw [columns_eq_flatMap]
  exact List.mem_flatMap.mpr ⟨conjunct, conjunct_mem, column_mem⟩

end Scalar

namespace LogicalOperator

/-- The condition of a join or a filter. -/
def condition? : LogicalOperator → Option Scalar
  | .join _ condition => some condition
  | .filter predicate => some predicate
  | _ => none

/--
An operator over inputs with the given tables below them may stand in a group with the given tables
below it. The first demand is that the group has the tables of the inputs, the second one that
equalities of columns link the inputs of joins, in filters as soon as they get there.
-/
structure Placed (strict linked : Prop) (tables : List String) (operator : LogicalOperator)
    (inputs : List (List String)) : Prop where
  qualified : ∀ {condition}, operator.condition? = some condition → ∀ column ∈ condition.columns,
    ∃ table, column.table = some table ∧ table ∈ tables
  covers : strict → tables ⊆ operator.tablesOver inputs
  bounded : strict → operator.tablesOver inputs ⊆ tables
  single : strict → operator.kind = .filter ∨ operator.kind = .project → inputs.length = 1
  spans : linked → ∀ {predicate}, operator = .filter predicate → ∀ conjunct ∈ predicate.conjuncts,
    conjunct.isEquality = true → tables ⊆ conjunct.tables
  supplied : linked → ∀ {type condition left right}, operator = .join type condition →
    inputs = [left, right] → left ≠ [] ∧ right ≠ []
  links : linked → ∀ {type condition left right}, operator = .join type condition →
    inputs = [left, right] → ∀ conjunct ∈ condition.conjuncts, conjunct.isEquality = true →
      conjunct.Links left right

namespace Placed

variable {strict linked : Prop} {tables wider : List String} {operator : LogicalOperator}
  {inputs wide : List (List String)}

/-- Where the demand for equal tables is made, the tables of groups stay the same. -/
theorem mono (implies : linked → strict) (placed : operator.Placed strict linked tables inputs)
    (subset : tables ⊆ wider) (inputs_subset : List.Forall₂ (· ⊆ ·) inputs wide)
    (same : strict → wider ⊆ tables ∧ List.Forall₂ (· ⊆ ·) wide inputs) :
    operator.Placed strict linked wider wide where
  qualified := by
    intro condition condition_eq column column_mem
    rcases placed.qualified condition_eq column column_mem with ⟨table, table_eq, table_mem⟩
    exact ⟨table, table_eq, subset table_mem⟩
  covers := fun demand => List.Subset.trans (same demand).1
    (List.Subset.trans (placed.covers demand) (tablesOver_mono inputs_subset))
  bounded := fun demand => List.Subset.trans (tablesOver_mono (same demand).2)
    (List.Subset.trans (placed.bounded demand) subset)
  single := fun demand kind_eq => inputs_subset.length_eq.symm.trans (placed.single demand kind_eq)
  spans := fun demand _ operator_eq conjunct conjunct_mem equality =>
    List.Subset.trans (same (implies demand)).1
      (placed.spans demand operator_eq conjunct conjunct_mem equality)
  supplied := by
    intro demand type condition left right operator_eq inputs_eq
    subst inputs_eq
    rcases List.forall₂_cons_right_iff.mp inputs_subset with ⟨first, rest, first_subset, tail, rfl⟩
    rcases List.forall₂_cons_right_iff.mp tail with ⟨second, nothing, second_subset, none, rfl⟩
    rw [List.forall₂_nil_right_iff.mp none] at placed
    exact (placed.supplied demand operator_eq rfl).imp
      (fun first_some left_none => first_some (List.subset_nil.mp (left_none ▸ first_subset)))
      (fun second_some right_none => second_some (List.subset_nil.mp (right_none ▸ second_subset)))
  links := by
    intro demand type condition left right operator_eq inputs_eq conjunct conjunct_mem equality
    subst inputs_eq
    rcases List.forall₂_cons_right_iff.mp inputs_subset with ⟨first, rest, first_subset, tail, rfl⟩
    rcases List.forall₂_cons_right_iff.mp tail with ⟨second, nothing, second_subset, none, rfl⟩
    rw [List.forall₂_nil_right_iff.mp none] at placed
    exact (placed.links demand operator_eq rfl conjunct conjunct_mem equality).mono first_subset
      second_subset

/-- Conditions are stored with their conjuncts in order. -/
theorem canonical (placed : operator.Placed strict linked tables inputs) :
    operator.canonical.Placed strict linked tables inputs := by
  cases operator with
  | join type condition =>
      refine ⟨?_, placed.covers, placed.bounded, placed.single, fun _ _ same => (by cases same),
        fun demand _ _ _ _ _ inputs_eq => placed.supplied demand rfl inputs_eq, ?_⟩
      · intro held held_eq column column_mem
        cases held_eq
        rcases Scalar.columns_canonicalConjunction (fun _ => Scalar.conjuncts_of_mem condition)
          column_mem with ⟨conjunct, conjunct_mem, column_mem⟩
        exact placed.qualified rfl column (Scalar.mem_columns_of_conjunct conjunct_mem column_mem)
      · intro demand other held left right same inputs_eq conjunct conjunct_mem equality
        cases same
        rcases Scalar.mem_conjuncts_canonicalConjunction
          (fun _ => Scalar.conjuncts_of_mem condition) conjunct_mem with known | rfl
        · exact placed.links demand rfl inputs_eq conjunct known equality
        · cases equality
  | _ => exact placed

/-! ## Joins of two inputs -/

section Joins

variable {type : JoinType} {condition : Scalar} {left right : List String}

/-- What is demanded of joins in particular. -/
theorem of_join
    (qualified : ∀ column ∈ condition.columns, ∃ table, column.table = some table ∧ table ∈ tables)
    (covers : strict → tables ⊆ left ++ right) (bounded : strict → left ++ right ⊆ tables)
    (supplied : linked → left ≠ [] ∧ right ≠ [])
    (links : linked → ∀ conjunct ∈ condition.conjuncts, conjunct.isEquality = true →
      conjunct.Links left right) :
    (join type condition).Placed strict linked tables [left, right] where
  qualified := fun condition_eq => by
    cases condition_eq
    exact qualified
  covers := fun demand => by simpa [tablesOver] using covers demand
  bounded := fun demand => by simpa [tablesOver] using bounded demand
  single := by rintro - (same | same) <;> cases same
  spans := fun _ _ same => by cases same
  supplied := by
    intro demand other held one another same inputs_eq
    cases inputs_eq
    exact supplied demand
  links := by
    intro demand other held one another same inputs_eq
    cases same
    cases inputs_eq
    exact links demand

/-- Joins are made with conditions that are put together from the conjuncts of others. -/
theorem of_conjuncts {conjuncts : List Scalar}
    (atoms : ∀ conjunct ∈ conjuncts, conjunct.conjuncts = [conjunct])
    (qualified : ∀ conjunct ∈ conjuncts, ∀ column ∈ conjunct.columns,
      ∃ table, column.table = some table ∧ table ∈ tables)
    (covers : strict → tables ⊆ left ++ right) (bounded : strict → left ++ right ⊆ tables)
    (supplied : linked → left ≠ [] ∧ right ≠ [])
    (links : linked → ∀ conjunct ∈ conjuncts, conjunct.isEquality = true →
      conjunct.Links left right) :
    (join type (.canonicalConjunction conjuncts)).Placed strict linked tables [left, right] := by
  refine of_join (fun column column_mem => ?_) covers bounded supplied
    fun demand conjunct conjunct_mem equality => ?_
  · rcases Scalar.columns_canonicalConjunction atoms column_mem with
      ⟨conjunct, conjunct_mem, column_mem⟩
    exact qualified conjunct conjunct_mem column column_mem
  · rcases Scalar.mem_conjuncts_canonicalConjunction atoms conjunct_mem with known | rfl
    · exact links demand conjunct known equality
    · cases equality

theorem join_covers (placed : (join type condition).Placed strict linked tables [left, right])
    (demand : strict) : tables ⊆ left ++ right := by
  simpa [tablesOver] using placed.covers demand

theorem join_bounded (placed : (join type condition).Placed strict linked tables [left, right])
    (demand : strict) : left ++ right ⊆ tables := by
  simpa [tablesOver] using placed.bounded demand

theorem join_qualified {inputs : List (List String)}
    (placed : (join type condition).Placed strict linked tables inputs) {conjunct : Scalar}
    (conjunct_mem : conjunct ∈ condition.conjuncts) {column : ColumnRef}
    (column_mem : column ∈ conjunct.columns) :
    ∃ table, column.table = some table ∧ table ∈ tables :=
  placed.qualified rfl column (Scalar.mem_columns_of_conjunct conjunct_mem column_mem)

end Joins

/-! ## What transformations do -/

section Transformations

variable {type : JoinType} {condition outer inner : Scalar} {first last left right stay moved :
  List String}

theorem commuted (placed : (join type condition).Placed strict linked tables [left, right]) :
    (join type condition).Placed strict linked tables [right, left] := by
  apply of_join
  · exact placed.qualified rfl
  · intro demand table table_mem
    simpa [or_comm] using placed.join_covers demand table_mem
  · intro demand table table_mem
    apply placed.join_bounded demand
    simpa [or_comm] using table_mem
  · exact fun demand => (placed.supplied demand rfl rfl).symm
  · intro demand conjunct conjunct_mem equality
    exact (placed.links demand rfl rfl conjunct conjunct_mem equality).symm

/-- The new inner join of a reassociation. -/
theorem pushed (placed : (join type outer).Placed strict linked tables [first, last])
    (inner_placed : (join .inner inner).Placed strict linked first [stay, moved])
    {conjuncts : List Scalar} (connected : ∀ conjunct ∈ conjuncts, conjunct ∈ outer.conjuncts ∧
      Rules.connects moved last conjunct = true) :
    (join .inner (.canonicalConjunction conjuncts)).Placed strict linked
      ((join .inner (.canonicalConjunction conjuncts)).tablesOver [moved, last]) [moved, last] := by
  rw [tablesOver_join]
  apply of_conjuncts
  · exact fun conjunct conjunct_mem =>
      Scalar.conjuncts_of_mem outer (connected conjunct conjunct_mem).1
  · intro conjunct conjunct_mem column column_mem
    rcases connected conjunct conjunct_mem with ⟨outer_mem, connects⟩
    rcases placed.join_qualified outer_mem column_mem with ⟨table, table_eq, -⟩
    refine ⟨table, table_eq, ?_⟩
    rw [Rules.connects, Bool.and_eq_true, Bool.and_eq_true, List.all_eq_true] at connects
    have table_mem : table ∈ conjunct.tables :=
      List.mem_filterMap.mpr ⟨column, column_mem, table_eq⟩
    simpa using connects.1.1 table table_mem
  · exact fun _ => List.Subset.refl _
  · exact fun _ => List.Subset.refl _
  · exact fun demand =>
      ⟨(inner_placed.supplied demand rfl rfl).2, (placed.supplied demand rfl rfl).2⟩
  · intro demand conjunct conjunct_mem equality
    rcases connected conjunct conjunct_mem with ⟨outer_mem, connects⟩
    exact (placed.links demand rfl rfl conjunct outer_mem equality).of_connects connects

/-- The new outer join of a reassociation. -/
theorem kept (implies : linked → strict)
    (placed : (join type outer).Placed strict linked tables [first, last])
    (inner_placed : (join .inner inner).Placed strict linked first [stay, moved])
    (first_subset : first ⊆ tables) {conjuncts : List Scalar}
    (unconnected : ∀ conjunct ∈ conjuncts, conjunct ∈ outer.conjuncts ∧
      Rules.connects moved last conjunct = false) :
    (join .inner (.canonicalConjunction (inner.conjuncts ++ conjuncts))).Placed strict linked tables
      [stay, moved ++ last] := by
  have parts {conjunct : Scalar} (conjunct_mem : conjunct ∈ inner.conjuncts ++ conjuncts) :
      conjunct ∈ inner.conjuncts ∨ conjunct ∈ outer.conjuncts :=
    (List.mem_append.mp conjunct_mem).imp_right fun known => (unconnected conjunct known).1
  apply of_conjuncts
  · exact fun conjunct conjunct_mem => (parts conjunct_mem).elim (Scalar.conjuncts_of_mem inner)
      (Scalar.conjuncts_of_mem outer)
  · intro conjunct conjunct_mem column column_mem
    rcases parts conjunct_mem with inner_mem | outer_mem
    · rcases inner_placed.join_qualified inner_mem column_mem with ⟨table, table_eq, table_mem⟩
      exact ⟨table, table_eq, first_subset table_mem⟩
    · exact placed.join_qualified outer_mem column_mem
  · intro demand table table_mem
    have below := placed.join_covers demand table_mem
    have below_first (first_mem : table ∈ first) := inner_placed.join_covers demand first_mem
    simp only [List.mem_append] at below below_first ⊢
    tauto
  · intro demand table table_mem
    apply placed.join_bounded demand
    have in_first (either : table ∈ stay ++ moved) := inner_placed.join_bounded demand either
    simp only [List.mem_append] at table_mem in_first ⊢
    tauto
  · intro demand
    have supplied := inner_placed.supplied demand rfl rfl
    exact ⟨supplied.1, fun nothing => supplied.2 (List.append_eq_nil_iff.mp nothing).1⟩
  · intro demand conjunct conjunct_mem equality
    rcases List.mem_append.mp conjunct_mem with inner_mem | known
    · exact (inner_placed.links demand rfl rfl conjunct inner_mem equality).mono
        (List.Subset.refl _) (List.subset_append_left _ _)
    · rcases unconnected conjunct known with ⟨outer_mem, apart⟩
      exact (placed.links demand rfl rfl conjunct outer_mem equality).of_not_connects
        (inner_placed.join_covers (implies demand)) apart

/-- A join with the predicate of a filter over it. -/
theorem merged (implies : linked → strict) {predicate : Scalar} {input : List String}
    {rest : List (List String)}
    (placed : (filter predicate).Placed strict linked tables (input :: rest))
    (join_placed : (join type condition).Placed strict linked input [left, right])
    (input_subset : input ⊆ tables) :
    (join .inner (Rules.mergeConditions condition predicate)).Placed strict linked tables
      [left, right] := by
  have parts {conjunct : Scalar} (conjunct_mem : conjunct ∈
      condition.conjuncts.filter (fun conjunct => !conjunct.same .truth) ++ predicate.conjuncts) :
      conjunct ∈ condition.conjuncts ∨ conjunct ∈ predicate.conjuncts :=
    (List.mem_append.mp conjunct_mem).imp_left fun known => (List.mem_filter.mp known).1
  have covers (demand : strict) : tables ⊆ left ++ right := by
    intro table table_mem
    have alone : rest = [] := by simpa using placed.single demand (.inl rfl)
    subst alone
    apply join_placed.join_covers demand
    simpa [tablesOver] using placed.covers demand table_mem
  have bounded (demand : strict) : left ++ right ⊆ tables :=
    List.Subset.trans (join_placed.join_bounded demand) input_subset
  have qualified {conjunct : Scalar} (conjunct_mem : conjunct ∈ predicate.conjuncts)
      {column : ColumnRef} (column_mem : column ∈ conjunct.columns) :
      ∃ table, column.table = some table ∧ table ∈ tables :=
    placed.qualified rfl column (Scalar.mem_columns_of_conjunct conjunct_mem column_mem)
  apply of_conjuncts
  · exact fun conjunct conjunct_mem => (parts conjunct_mem).elim
      (Scalar.conjuncts_of_mem condition) (Scalar.conjuncts_of_mem predicate)
  · intro conjunct conjunct_mem column column_mem
    rcases parts conjunct_mem with known | known
    · rcases join_placed.join_qualified known column_mem with ⟨table, table_eq, table_mem⟩
      exact ⟨table, table_eq, input_subset table_mem⟩
    · exact qualified known column_mem
  · exact covers
  · exact bounded
  · exact fun demand => join_placed.supplied demand rfl rfl
  · intro demand conjunct conjunct_mem equality
    rcases parts conjunct_mem with known | known
    · exact join_placed.links demand rfl rfl conjunct known equality
    · -- all tables of the inputs are the filter's, and these are the ones of the equality
      have below := List.append_subset.mp (List.Subset.trans (bounded (implies demand))
        (placed.spans demand rfl conjunct known equality))
      have supplied := join_placed.supplied demand rfl rfl
      refine Scalar.links_of_tables equality (fun column column_mem => ?_) below.1 below.2
        supplied.1 supplied.2
      rcases qualified known column_mem with ⟨table, table_eq, table_mem⟩
      exact ⟨table, table_eq, List.mem_append.mp (covers (implies demand) table_mem)⟩

end Transformations

section Projections

variable {scalars : List Scalar} {aliases : List String} {table : TableRef}
  {columns fewer : List ColumnRef} {predicate : Option Scalar} {input : List String}
  {rest : List (List String)}

/-- A scan may stand wherever only its table is. -/
theorem scanned (inputs : List (List String)) :
    (scan table columns predicate).Placed strict linked
      ((scan table columns predicate).tablesOver inputs) inputs where
  qualified := fun condition_eq => by cases condition_eq
  covers := fun _ => List.Subset.refl _
  bounded := fun _ => List.Subset.refl _
  single := by rintro - (same | same) <;> cases same
  spans := fun _ _ same => by cases same
  supplied := fun _ _ _ _ _ same => by cases same
  links := fun _ _ _ _ _ same => by cases same

/-- A projection over a scan of fewer columns. -/
theorem projected
    (placed : (project scalars aliases).Placed strict linked tables (input :: rest))
    (scan_placed : (scan table columns predicate).Placed strict linked input wide)
    (input_subset : input ⊆ tables) :
    (project scalars aliases).Placed strict linked tables
      [(scan table fewer predicate).tablesOver []] where
  qualified := placed.qualified
  covers := by
    intro demand name name_mem
    have alone : rest = [] := by simpa using placed.single demand (.inr rfl)
    subst alone
    have in_input : name ∈ input := by simpa [tablesOver] using placed.covers demand name_mem
    simpa [tablesOver] using scan_placed.covers demand in_input
  bounded := by
    intro demand name name_mem
    have name_eq : name = table.name := by simpa [tablesOver] using name_mem
    exact input_subset (scan_placed.bounded demand (by simp [tablesOver, name_eq]))
  single := fun _ _ => rfl
  spans := fun _ _ same => by cases same
  supplied := fun _ _ _ _ _ same => by cases same
  links := fun _ _ _ _ _ same => by cases same

end Projections

end Placed

end LogicalOperator

end Cascades
