import Cascades.Proofs.Meaning.Conditions
import Cascades.Proofs.Memo.Built
import Cascades.Proofs.Rules.Descent
import Cascades.Proofs.Rules.Outcomes

/-!
# What a reassociated condition sees

A reassociation splits the conjuncts of the outer condition by the tables that qualify their
columns. So the new inner condition mentions no qualified column that the scans below the new inner
join do not list, and together the new conditions have the conjuncts of the old ones.

A column without a table has no say in this. A conjunct that is moved because of its other columns
takes such a column along, even where only a scan below the input that stays lists it.
-/

namespace Cascades

deriving instance DecidableEq for Expression

namespace Expression

/-- Whether a scan lists a column by name, for the table of the column if it has one. -/
def lists (scan : Expression) (column : ColumnRef) : Bool :=
  match scan.operator with
  | .logical (.scan table columns _) =>
      column.table.all (· == table.name) && columns.any (·.name == column.name)
  | _ => false

end Expression

namespace Memo

/-- The scans below some groups. -/
def scansBelow (memo : Memo) (ids : List GroupId) : List Expression :=
  ids.flatMap fun id =>
    (Traversal.breadthFirst memo.groups.size memo.tableSuccessors id).flatMap fun below =>
      (memo.logicalIn below).filter fun expression => expression.scanned?.isSome

/-- Some scan below the groups lists a column. -/
def Shows (memo : Memo) (ids : List GroupId) (column : ColumnRef) : Prop :=
  ∃ scan ∈ memo.scansBelow ids, scan.lists column = true

instance (memo : Memo) (ids : List GroupId) (column : ColumnRef) :
    Decidable (memo.Shows ids column) :=
  inferInstanceAs (Decidable (∃ scan ∈ memo.scansBelow ids, scan.lists column = true))

/-- No two scans below the groups read tables of the same name. -/
def Separate (memo : Memo) (ids : List GroupId) : Prop :=
  ∀ scan ∈ memo.scansBelow ids, ∀ other ∈ memo.scansBelow ids,
    scan.scanned?.map TableRef.name = other.scanned?.map TableRef.name → scan = other

instance (memo : Memo) (ids : List GroupId) : Decidable (memo.Separate ids) :=
  inferInstanceAs (Decidable (∀ scan ∈ memo.scansBelow ids, ∀ other ∈ memo.scansBelow ids,
    scan.scanned?.map TableRef.name = other.scanned?.map TableRef.name → scan = other))

variable {memo : Memo} {ids : List GroupId} {scan : Expression}

theorem mem_scansBelow : scan ∈ memo.scansBelow ids ↔ ∃ id ∈ ids, ∃ below,
    Traversal.Reaches memo.tableSuccessors id below ∧ scan ∈ memo.logicalIn below ∧
      scan.scanned?.isSome = true := by
  simp only [scansBelow, List.mem_flatMap, List.mem_filter,
    Traversal.mem_breadthFirst fun node => tableSuccessors_eq_nil]

/-- A table that is scanned below a group is read by a scan below it. -/
theorem exists_scan_of_mem_tablesBelow {id : GroupId} {name : String}
    (name_mem : name ∈ memo.tablesBelow id) :
    ∃ scan ∈ memo.scansBelow [id], scan.scanned?.map TableRef.name = some name := by
  rcases mem_tablesBelow.mp name_mem with ⟨below, reaches, name_mem⟩
  rcases List.mem_map.mp name_mem with ⟨table, table_mem, rfl⟩
  rcases List.mem_filterMap.mp table_mem with ⟨scan, scan_mem, scanned⟩
  refine ⟨scan, mem_scansBelow.mpr ⟨id, by simp, below, reaches, scan_mem, ?_⟩, ?_⟩
  · rw [scanned, Option.isSome_some]
  · rw [scanned, Option.map_some]

/-- A scan below an input is a scan below the expression. -/
theorem scansBelow_subset {others : List GroupId}
    (reached : ∀ other ∈ others, ∃ id ∈ ids, Traversal.Reaches memo.tableSuccessors id other) :
    memo.scansBelow others ⊆ memo.scansBelow ids := by
  intro scan scan_mem
  rcases mem_scansBelow.mp scan_mem with ⟨other, other_mem, below, reaches, rest⟩
  rcases reached other other_mem with ⟨id, id_mem, first⟩
  exact mem_scansBelow.mpr ⟨id, id_mem, below, first.trans reaches, rest⟩

theorem scanned?_of_lists {column : ColumnRef} (listed : scan.lists column = true) {name : String}
    (table_eq : column.table = some name) : scan.scanned?.map TableRef.name = some name := by
  cases operator_eq : scan.operator with
  | physical operator => simp [Expression.lists, operator_eq] at listed
  | logical operator =>
      cases operator with
      | scan table columns predicate =>
          simp only [Expression.lists, operator_eq, table_eq, Bool.and_eq_true, Option.all_some,
            beq_iff_eq] at listed
          rw [Expression.scanned?, operator_eq]
          exact congrArg some listed.1.symm
      | _ => simp [Expression.lists, operator_eq] at listed

end Memo

namespace Scalar

/-- Up to repeats, two conditions together have the given conjuncts and no others. -/
structure Shares (conjuncts : List Scalar) (first second : Scalar) : Prop where
  kept : ∀ conjunct ∈ conjuncts, ∃ kept ∈ first.conjuncts ++ second.conjuncts,
    kept.same conjunct = true
  known : ∀ conjunct ∈ first.conjuncts ++ second.conjuncts, conjunct ∈ conjuncts

/-- Conjuncts that are split over two conditions, none of which stays empty. -/
theorem shares_canonicalConjunction {firsts seconds conjuncts : List Scalar}
    (atoms : ∀ conjunct ∈ conjuncts, conjunct.conjuncts = [conjunct])
    (split : ∀ conjunct, conjunct ∈ conjuncts ↔ conjunct ∈ firsts ∨ conjunct ∈ seconds)
    (some_first : firsts ≠ []) (some_second : seconds ≠ []) :
    Shares conjuncts (canonicalConjunction firsts) (canonicalConjunction seconds) := by
  have firsts_eq : (canonicalConjunction firsts).conjuncts = ordered firsts := by
    rw [conjuncts_canonicalConjunction fun conjunct conjunct_mem =>
      atoms conjunct ((split conjunct).mpr (.inl conjunct_mem)), if_neg some_first]
  have seconds_eq : (canonicalConjunction seconds).conjuncts = ordered seconds := by
    rw [conjuncts_canonicalConjunction fun conjunct conjunct_mem =>
      atoms conjunct ((split conjunct).mpr (.inr conjunct_mem)), if_neg some_second]
  refine ⟨?_, ?_⟩
  · intro conjunct conjunct_mem
    rw [firsts_eq, seconds_eq]
    rcases (split conjunct).mp conjunct_mem with first_mem | second_mem
    · rcases exists_same_ordered first_mem with ⟨kept, kept_mem, same⟩
      exact ⟨kept, List.mem_append_left _ kept_mem, same⟩
    · rcases exists_same_ordered second_mem with ⟨kept, kept_mem, same⟩
      exact ⟨kept, List.mem_append_right _ kept_mem, same⟩
  · intro conjunct conjunct_mem
    rw [firsts_eq, seconds_eq] at conjunct_mem
    rw [split]
    exact (List.mem_append.mp conjunct_mem).imp mem_of_mem_ordered mem_of_mem_ordered

end Scalar

namespace Rules

variable {memo : Memo} {expression : Expression} {result : RuleResult}

/-- `(stay ⋈ moved) ⋈ last`, in whichever order the inner join has its inputs, has become
`stay ⋈ (moved ⋈ last)`. -/
structure Rearranges (memo : Memo) (expression : Expression) (result : RuleResult)
    (outer inner newOuter newInner : Scalar) (stay moved last : GroupId) : Prop where
  before : ∃ first, expression.join? = some (.inner, outer, first, last) ∧
    ∃ input ∈ memo.logicalIn first, input.localInnerJoin? = some (inner, stay, moved) ∨
      input.localInnerJoin? = some (inner, moved, stay)
  after : result = .nested (.logical (.join .inner newOuter))
    [.group stay, .fresh (.logical (.join .inner newInner)) [.group moved, .group last]]

namespace Rearranges

variable {outer inner newOuter newInner : Scalar} {stay moved last : GroupId}

/-- The scans below the new inner join are among those below the outer one. -/
theorem scansBelow_subset
    (rearranges : Rearranges memo expression result outer inner newOuter newInner stay moved last) :
    memo.scansBelow [moved, last] ⊆ memo.scansBelow expression.children := by
  rcases rearranges.before with ⟨first, join_eq, input, input_mem, inner_eq⟩
  have children_eq := (Expression.join?_eq_some.mp join_eq).2
  have moved_mem : moved ∈ memo.tableSuccessors first := by
    rw [Memo.tableSuccessors_eq]
    refine List.mem_flatMap.mpr ⟨input, input_mem, ?_⟩
    rcases inner_eq with inner_eq | inner_eq
    · rcases Expression.localInnerJoin?_eq_some.mp inner_eq with ⟨operator_eq, -, inputs_eq⟩
      simp [Expression.tableInputs, operator_eq, inputs_eq]
    · rcases Expression.localInnerJoin?_eq_some.mp inner_eq with ⟨operator_eq, -, inputs_eq⟩
      simp [Expression.tableInputs, operator_eq, inputs_eq]
  rw [children_eq]
  refine Memo.scansBelow_subset ?_
  intro other other_mem
  rcases List.mem_pair.mp other_mem with rfl | rfl
  · exact ⟨first, by simp, .single moved_mem⟩
  · exact ⟨other, by simp, .refl⟩

/-- Stored conditions have conjuncts. -/
theorem conjuncts_ne_nil (consistent : memo.Consistent)
    (rearranges : Rearranges memo expression result outer inner newOuter newInner stay moved last) :
    inner.conjuncts ≠ [] := by
  rcases rearranges.before with ⟨first, -, input, input_mem, inner_eq⟩
  have operator_eq : input.operator = .logical (.join .inner inner) := by
    rcases inner_eq with inner_eq | inner_eq
    · exact (Expression.localInnerJoin?_eq_some.mp inner_eq).1
    · exact (Expression.localInnerJoin?_eq_some.mp inner_eq).1
  have canonical := consistent.canonical ((Memo.mem_logicalIn consistent).mp input_mem).1
  rw [operator_eq] at canonical
  exact Scalar.conjuncts_ne_nil (by simpa [Operator.canonical, LogicalOperator.canonical] using canonical)

/-- Where no two scans below the outer join read tables of one name, the columns of a condition of
the outer join that are qualified by tables below the new inner join are listed there. -/
theorem shows
    (rearranges : Rearranges memo expression result outer inner newOuter newInner stay moved last)
    (separate : memo.Separate expression.children) {column : ColumnRef}
    (shown : memo.Shows expression.children column) {name : String}
    (table_eq : column.table = some name)
    (name_mem : name ∈ memo.tablesBelow moved ∨ name ∈ memo.tablesBelow last) :
    memo.Shows [moved, last] column := by
  have scanned : ∃ scan ∈ memo.scansBelow [moved, last],
      scan.scanned?.map TableRef.name = some name := by
    rcases name_mem with name_mem | name_mem
    · rcases Memo.exists_scan_of_mem_tablesBelow name_mem with ⟨scan, scan_mem, scanned⟩
      exact ⟨scan, Memo.scansBelow_subset (by simpa using .inl .refl) scan_mem, scanned⟩
    · rcases Memo.exists_scan_of_mem_tablesBelow name_mem with ⟨scan, scan_mem, scanned⟩
      exact ⟨scan, Memo.scansBelow_subset (by simpa using .inr .refl) scan_mem, scanned⟩
  rcases scanned with ⟨scan, scan_mem, scanned⟩
  rcases shown with ⟨other, other_mem, listed⟩
  have same := separate scan (rearranges.scansBelow_subset scan_mem) other other_mem
    (scanned.trans (Memo.scanned?_of_lists listed table_eq).symm)
  exact ⟨scan, scan_mem, same ▸ listed⟩

end Rearranges

/-- Every association splits the conjuncts of the outer join by the tables that they connect. -/
theorem exists_rearranges (result_mem : result ∈ associations memo expression) :
    ∃ outer inner stay moved last pushed kept,
      Rearranges memo expression result outer inner (.canonicalConjunction (inner.conjuncts ++ kept))
        (.canonicalConjunction pushed) stay moved last ∧ pushed ≠ [] ∧
      (∀ conjunct, conjunct ∈ pushed ↔ conjunct ∈ outer.conjuncts ∧
        connects (memo.tablesBelow moved) (memo.tablesBelow last) conjunct = true) ∧
      ∀ conjunct, conjunct ∈ kept ↔ conjunct ∈ outer.conjuncts ∧
        connects (memo.tablesBelow moved) (memo.tablesBelow last) conjunct = false := by
  rcases of_mem_associations result_mem with ⟨outer, first, last, inner, left, right, input, join_eq,
    input_mem, inner_eq, stay, moved, parts, result_mem⟩
  rcases mem_reassociate.mp result_mem with ⟨some_pushed, result_eq⟩
  refine ⟨outer, inner, stay, moved, last, _, _, ⟨⟨first, join_eq, input, input_mem, ?_⟩, result_eq⟩,
    some_pushed, ?_, ?_⟩
  · rcases parts with ⟨rfl, rfl⟩ | ⟨rfl, rfl⟩
    · exact .inl inner_eq
    · exact .inr inner_eq
  · exact fun conjunct => List.mem_filter
  · intro conjunct
    rw [List.mem_filter, Function.comp_apply, Bool.not_eq_true']

/-- Every conjunct that is pushed mentions tables below the inputs of the new inner join only. -/
theorem mem_tables_of_connects {moved last : List String} {conjunct : Scalar}
    (connected : connects moved last conjunct = true) {column : ColumnRef}
    (column_mem : column ∈ conjunct.columns) {name : String} (table_eq : column.table = some name) :
    name ∈ moved ∨ name ∈ last := by
  rw [connects, Bool.and_eq_true, Bool.and_eq_true, List.all_eq_true] at connected
  have table_mem : name ∈ conjunct.tables := List.mem_filterMap.mpr ⟨column, column_mem, table_eq⟩
  simpa using connected.1.1 name table_mem

/--
Reassociation loses and adds no conjunct, and the new inner join sees the qualified columns of its
condition: where no two scans below the outer join read tables of one name and the columns of its
condition are listed there, these columns are listed by scans below the new inner join.
-/
theorem associations_in_sight (built : memo.Built) (separate : memo.Separate expression.children)
    (shown : ∀ {type outer first last}, expression.join? = some (type, outer, first, last) →
      ∀ column ∈ outer.columns, memo.Shows expression.children column) (catalog : Catalog) :
    (memo.Closed → memo.expression? expression.id = some expression →
      ∃ results, joinAssociativity.apply expression memo catalog = .ok (.results results)) ∧
    ∀ results, joinAssociativity.apply expression memo catalog = .ok (.results results) →
      ∀ result ∈ results, ∃ outer inner newOuter newInner stay moved last,
        Rearranges memo expression result outer inner newOuter newInner stay moved last ∧
        (∀ column ∈ newInner.columns, column.table.isSome = true →
          memo.Shows [moved, last] column) ∧
        Scalar.Shares (outer.conjuncts ++ inner.conjuncts) newOuter newInner := by
  have consistent := built.consistent
  refine ⟨?_, ?_⟩
  · intro closed stored
    rcases joinAssociativity_steady.applies consistent closed stored with ⟨results, apply_eq, -⟩
    exact ⟨results, apply_eq⟩
  intro results applied result result_mem
  have results_eq : results = associations memo expression := by
    refine eq_associations ?_
    dsimp only [joinAssociativity] at applied
    cases read : associateJoin expression memo with
    | error cause =>
        rw [read] at applied
        cases applied
    | ok made =>
        rw [read] at applied
        cases applied
        rfl
  subst results_eq
  rcases exists_rearranges result_mem with
    ⟨outer, inner, stay, moved, last, pushed, kept, rearranges, some_pushed, pushed_iff, kept_iff⟩
  have atoms {conjunct : Scalar} (conjunct_mem : conjunct ∈ pushed) :
      conjunct.conjuncts = [conjunct] :=
    Scalar.conjuncts_of_mem outer ((pushed_iff conjunct).mp conjunct_mem).1
  refine ⟨outer, inner, _, _, stay, moved, last, rearranges, ?_, ?_⟩
  · intro column column_mem qualified
    rcases Option.isSome_iff_exists.mp qualified with ⟨name, table_eq⟩
    rcases Scalar.columns_canonicalConjunction (fun _ => atoms) column_mem with
      ⟨conjunct, conjunct_mem, column_mem⟩
    rcases (pushed_iff conjunct).mp conjunct_mem with ⟨conjunct_mem, connected⟩
    rcases rearranges.before with ⟨first, join_eq, -⟩
    have outer_mem : column ∈ outer.columns := by
      rw [Scalar.columns_eq_flatMap]
      exact List.mem_flatMap.mpr ⟨conjunct, conjunct_mem, column_mem⟩
    exact rearranges.shows separate (shown join_eq column outer_mem) table_eq
      (mem_tables_of_connects connected column_mem table_eq)
  · refine Scalar.shares_canonicalConjunction ?_ ?_ ?_ some_pushed
    · intro conjunct conjunct_mem
      rcases List.mem_append.mp conjunct_mem with outer_mem | inner_mem
      · exact Scalar.conjuncts_of_mem outer outer_mem
      · exact Scalar.conjuncts_of_mem inner inner_mem
    · intro conjunct
      rw [List.mem_append, List.mem_append, pushed_iff, kept_iff]
      cases connects (memo.tablesBelow moved) (memo.tablesBelow last) conjunct <;> simp [or_comm]
    · simp [rearranges.conjuncts_ne_nil consistent]

/-- A join over a join of three scans that list their columns. -/
def listing (outer : Scalar) : Memo :=
  let scan (memo : Memo) (table : String) (columns : List String) : Memo :=
    (memo.add (.logical (.scan ⟨"public", table⟩ (columns.map (.qualified table)) none)) [] none).1
  let join (memo : Memo) (condition : Scalar) (left right : GroupId) : Memo :=
    (memo.add (.logical (.join .inner condition)) [left, right] none).1
  let scans := scan (scan (scan .empty "a" ["x", "z"]) "b" ["x", "y"]) "c" ["y"]
  join (join scans (.equality "a" "x" "b" "x") 0 1) outer 3 2

/-- The outer join of such a memo. -/
def outerJoin (outer : Scalar) : Expression :=
  ⟨4, 4, .logical (.join .inner outer), [3, 2], none, .empty⟩

theorem built_listing (outer : Scalar) : (listing outer).Built :=
  .add _ _ _ (.add _ _ _ (.add _ _ _ (.add _ _ _ (.add _ _ _ .empty))))

/-- Where the outer join compares `b.y` with `c.y`, the new inner join does so. -/
theorem associations_in_sight_listing :
    ∃ results, joinAssociativity.apply (outerJoin (.equality "b" "y" "c" "y"))
        (listing (.equality "b" "y" "c" "y")) .empty = .ok (.results results) ∧
      ∀ result ∈ results, ∃ outer inner newOuter newInner stay moved last,
        Rearranges (listing (.equality "b" "y" "c" "y")) (outerJoin (.equality "b" "y" "c" "y"))
          result outer inner newOuter newInner stay moved last ∧
        (∀ column ∈ newInner.columns, column.table.isSome = true →
          (listing (.equality "b" "y" "c" "y")).Shows [moved, last] column) ∧
        Scalar.Shares (outer.conjuncts ++ inner.conjuncts) newOuter newInner := by
  have closed : (listing (.equality "b" "y" "c" "y")).Closed := by
    intro id expression stored
    exact (by decide +kernel : ∀ expression ∈ (listing (.equality "b" "y" "c" "y")).expressions,
      ∀ child ∈ expression.children, child < (listing (.equality "b" "y" "c" "y")).groups.size) _
        (Array.mem_of_getElem? stored)
  have shown : ∀ {type outer first last},
      (outerJoin (.equality "b" "y" "c" "y")).join? = some (type, outer, first, last) →
        ∀ column ∈ outer.columns, (listing (.equality "b" "y" "c" "y")).Shows [3, 2] column := by
    intro type outer first last join_eq
    cases join_eq
    decide +kernel
  rcases associations_in_sight (built_listing _) (by decide +kernel) shown .empty with
    ⟨applies, in_sight⟩
  rcases applies closed rfl with ⟨results, applied⟩
  exact ⟨results, applied, in_sight results applied⟩

/-- The condition `b.y = c.y + z`, whose last column only the scan of `a` lists. -/
def straying : Scalar :=
  .binary .eq (.column (.qualified "b" "y"))
    (.binary .add (.column (.qualified "c" "y")) (.column ⟨none, "z", 0⟩))

/-- Reassociation moves the condition to the join of `b` and `c`, which does not see `z`. -/
theorem associations_out_of_sight :
    (listing straying).Separate (outerJoin straying).children ∧
    (∀ column ∈ straying.columns, (listing straying).Shows (outerJoin straying).children column) ∧
    ∃ result inner,
      joinAssociativity.apply (outerJoin straying) (listing straying) .empty =
        .ok (.results [result]) ∧
      Rearranges (listing straying) (outerJoin straying) result straying inner inner straying 0 1 2 ∧
      ∃ column ∈ straying.columns, ¬ (listing straying).Shows [1, 2] column := by
  refine ⟨by decide +kernel, by decide +kernel, _, .equality "a" "x" "b" "x", rfl, ?_, ?_⟩
  · exact ⟨⟨3, rfl, ⟨3, 3, .logical (.join .inner (.equality "a" "x" "b" "x")), [0, 1], none, .empty⟩,
      by decide +kernel, .inl rfl⟩, rfl⟩
  · exact ⟨⟨none, "z", 0⟩, by decide +kernel, by decide +kernel⟩

end Rules

end Cascades
