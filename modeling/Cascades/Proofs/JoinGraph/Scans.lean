import Cascades.JoinGraph.Memo
import Cascades.Proofs.JoinGraph.Orders
import Cascades.Proofs.Memo.Built
import Cascades.Proofs.Search.Fixpoint

/-!
# The scans of a join graph

The memo of a join graph has one expression in every group, without marks or flags, as long as it is
built. Its first groups are the scans of the tables, in the order of the graph. No identifier is read
twice, and every edge of an accepted graph connects two tables.
-/

namespace Cascades

namespace Memo

/-- A memo in which every group holds the logical expression of its own number and no other. -/
structure Discrete (memo : Memo) : Prop where
  built : memo.Built
  closed : memo.Closed
  sizes : memo.expressions.size = memo.groups.size
  groups : ∀ {id}, id < memo.groups.size → memo.group? id = some ⟨[id], [], false, false⟩
  expressions : ∀ {id expression}, memo.expression? id = some expression →
    expression.id = id ∧ expression.group = id ∧ expression.operator.isLogical = true ∧
      expression.origin = none ∧ expression.applied = .empty

namespace Discrete

variable {memo : Memo}

theorem empty : Memo.empty.Discrete where
  built := .empty
  closed := fun found => by simp [expression?, Memo.empty] at found
  sizes := rfl
  groups := fun bounded => by simp [Memo.empty] at bounded
  expressions := fun found => by simp [expression?, Memo.empty] at found

/-- What a new shape makes of a memo. -/
structure Added (memo larger : Memo) (operator : Operator) (children : List GroupId) : Prop where
  discrete : larger.Discrete
  size : larger.groups.size = memo.groups.size + 1
  expression : ∀ id, larger.expression? id = if id = memo.groups.size then
      some ⟨memo.groups.size, memo.groups.size, operator, children, none, .empty⟩
    else memo.expression? id

/-- A new logical shape is stored in a group of its own. -/
theorem add (discrete : memo.Discrete) {operator : Operator} {children : List GroupId}
    (logical : operator.isLogical = true) (canonical : operator.canonical = operator)
    (exist : ∀ child ∈ children, child < memo.groups.size)
    (missing : memo.find? operator children = none) :
    ∃ larger, memo.add operator children none = (larger, memo.groups.size, memo.groups.size) ∧
      Added memo larger operator children := by
  have add_eq : memo.add operator children none =
      (memo.opened.push memo.groups.size operator children none, memo.groups.size,
        memo.groups.size) := by
    rw [Memo.add, canonical, missing]
    simp [opened, discrete.sizes]
  have expression (id : ExprId) :
      (memo.opened.push memo.groups.size operator children none).expression? id =
        if id = memo.groups.size then
          some ⟨memo.groups.size, memo.groups.size, operator, children, none, .empty⟩
        else memo.expression? id := by
    rw [expression?_push, ← discrete.sizes]
    rfl
  refine ⟨_, add_eq, ?_, by simp, expression⟩
  have built : (memo.add operator children none).1.Built := .add operator children none discrete.built
  rw [add_eq] at built
  refine ⟨built, ?_, ?_, ?_, ?_⟩
  · refine Closed.push (Closed.opened discrete.closed) ?_
    intro child child_mem
    rw [size_groups_opened]
    exact Nat.lt_succ_of_lt (exist child child_mem)
  · simp [push, opened, discrete.sizes]
  · intro id bounded
    rw [group?_push, group?_opened]
    by_cases last : id = memo.groups.size
    · subst last
      have last_eq : memo.opened.expressions.size = memo.groups.size := discrete.sizes
      simp [last_eq, logical, Group.push, Group.empty]
    · rw [if_neg (Ne.symm last), if_neg last]
      refine discrete.groups ?_
      rw [size_groups_push, size_groups_opened] at bounded
      exact Nat.lt_of_le_of_ne (Nat.le_of_lt_succ bounded) last
  · intro id found_expression found
    rw [expression] at found
    split at found
    · rename_i last
      cases found
      exact ⟨last.symm, last.symm, logical, rfl, rfl⟩
    · exact discrete.expressions found

theorem expression?_lt (discrete : memo.Discrete) {id : ExprId} {expression : Expression}
    (found : memo.expression? id = some expression) : id < memo.groups.size :=
  discrete.sizes ▸ lt_of_expression? found

/-- A shape is new if no stored expression has it. -/
theorem find?_eq_none {operator : Operator} {children : List GroupId}
    (different : ∀ {id expression}, memo.expression? id = some expression →
      expression.children = children → expression.operator.same operator = true → False) :
    memo.find? operator children = none := by
  cases found : memo.find? operator children with
  | none => rfl
  | some expression =>
      rcases expression?_of_find? found with ⟨⟨id, stored⟩, children_eq, same⟩
      exact (different stored children_eq same).elim

theorem untouched (discrete : memo.Discrete) : memo.Untouched where
  logical := fun found => (discrete.expressions found).2.2.1
  original := fun found => (discrete.expressions found).2.2.2.1
  closed := discrete.closed
  unmarked := by
    intro id expression found rule
    rw [(discrete.expressions found).2.2.2.2, RuleSet.contains_empty]
  unreached := by
    rintro id goal ⟨group, found, reached⟩
    rw [discrete.groups (lt_of_group? found)] at found
    cases found
    cases goal <;> cases reached

end Discrete

end Memo

/-! ## Reading the tables -/

/-- The tables that have been read, with their scans. -/
structure Scanned (read : List GraphTable) (tables : ScannedTables) : Prop where
  discrete : tables.memo.Discrete
  size : tables.memo.groups.size = read.length
  expression : ∀ {position : Nat} {table}, read[position]? = some table →
    tables.memo.expression? position =
      some ⟨position, position, table.scan, [], none, .empty⟩
  scans : ∀ position : Nat,
    tables.scans[position]? = read[position]?.map fun table => ⟨table, position⟩
  references : (read.map GraphTable.reference).Nodup
  ids : (read.map GraphTable.id).Nodup

namespace Scanned

variable {read : List GraphTable} {tables : ScannedTables}

theorem empty : Scanned [] .empty where
  discrete := .empty
  size := rfl
  expression := fun found => by simp at found
  scans := fun position => by simp [ScannedTables.empty]
  references := List.nodup_nil
  ids := List.nodup_nil

/-- The scans of a graph are those of its tables. -/
theorem tables_eq (scanned : Scanned read tables) : tables.scans.map ScannedTable.table = read := by
  refine List.ext_getElem? ?_
  intro position
  rw [List.getElem?_map, scanned.scans]
  cases read[position]? <;> rfl

theorem find?_table (scanned : Scanned read tables) (id : String) :
    (tables.find? id).map ScannedTable.table = read.find? fun table => table.id == id := by
  rw [← scanned.tables_eq, List.find?_map]
  rfl

/-- A scan that is found stands at the position of its table. -/
theorem position_of_find? (scanned : Scanned read tables) {id : String} {scan : ScannedTable}
    (found : tables.find? id = some scan) : read[scan.group]? = some scan.table ∧ scan.table.id = id := by
  have id_eq : scan.table.id = id := by simpa using List.find?_some found
  rcases List.mem_iff_getElem?.mp (List.mem_of_find?_eq_some found) with ⟨position, scan_eq⟩
  rw [scanned.scans] at scan_eq
  rcases Option.map_eq_some_iff.mp scan_eq with ⟨table, table_eq, rfl⟩
  exact ⟨table_eq, id_eq⟩

theorem any_reference_iff (scanned : Scanned read tables) {reference : TableRef} :
    (tables.scans.any fun scan => scan.table.reference == reference) = true ↔
      reference ∈ read.map GraphTable.reference := by
  rw [← scanned.tables_eq]
  simp

theorem exists_scan_iff (scanned : Scanned read tables) {id : String} :
    (∃ scan, tables.find? id = some scan) ↔ id ∈ read.map GraphTable.id := by
  rw [← scanned.tables_eq, ← Option.isSome_iff_exists, ScannedTables.find?, List.find?_isSome]
  simp

/-- A table is added exactly if neither its reference nor its identifier is known already. -/
theorem add_ok_iff (scanned : Scanned read tables) {table : GraphTable} :
    (∃ more, tables.add table = .ok more) ↔
      table.reference ∉ read.map GraphTable.reference ∧ table.id ∉ read.map GraphTable.id := by
  rw [← scanned.any_reference_iff, ← scanned.exists_scan_iff, ← Option.isSome_iff_exists,
    ScannedTables.add]
  split
  · rename_i referenced
    exact ⟨fun ⟨_, added⟩ => (nomatch added), fun fresh => (fresh.1 referenced).elim⟩
  · rename_i unreferenced
    split
    · rename_i known
      exact ⟨fun ⟨_, added⟩ => (nomatch added), fun fresh => (fresh.2 known).elim⟩
    · rename_i unknown
      exact ⟨fun _ => ⟨unreferenced, unknown⟩, fun _ => ⟨_, rfl⟩⟩

theorem nodup_append_map {α : Type} [DecidableEq α] {key : GraphTable → α} {table : GraphTable}
    (nodup : (read.map key).Nodup) (fresh : key table ∉ read.map key) :
    ((read ++ [table]).map key).Nodup := by
  rw [List.map_append, List.nodup_append]
  refine ⟨nodup, by simp, ?_⟩
  rintro known known_mem other other_mem rfl
  rw [List.map_singleton, List.mem_singleton] at other_mem
  exact fresh (other_mem ▸ known_mem)

/-- Reading one more table adds its scan. -/
theorem add (scanned : Scanned read tables) {table : GraphTable} {more : ScannedTables}
    (added : tables.add table = .ok more) : Scanned (read ++ [table]) more := by
  rcases scanned.add_ok_iff.mp ⟨more, added⟩ with ⟨unreferenced, unknown⟩
  have missing : tables.memo.find? table.scan [] = none := by
    refine Memo.Discrete.find?_eq_none ?_
    intro id expression found _ same
    have bounded := scanned.discrete.expression?_lt found
    rw [scanned.size] at bounded
    have known := scanned.expression (List.getElem?_eq_getElem bounded)
    rw [found] at known
    cases known
    have refs_eq : read[id].reference = table.reference := by
      rw [Operator.same_iff] at same
      injection same with same
      injection same
    exact unreferenced (List.mem_map.mpr ⟨read[id], List.getElem_mem bounded, refs_eq⟩)
  rcases scanned.discrete.add rfl rfl (by simp) missing with ⟨larger, add_eq, result⟩
  have more_eq : more = ⟨larger, tables.catalog.add table.reference table.columnRefs,
      tables.scans ++ [⟨table, tables.memo.groups.size⟩]⟩ := by
    rw [ScannedTables.add, if_neg (mt scanned.any_reference_iff.mp unreferenced),
      if_neg (fun some => unknown (scanned.exists_scan_iff.mp (Option.isSome_iff_exists.mp some))),
      add_eq] at added
    exact (Except.ok.inj added).symm
  subst more_eq
  refine ⟨result.discrete, ?_, ?_, ?_, nodup_append_map scanned.references unreferenced,
    nodup_append_map scanned.ids unknown⟩
  · rw [result.size, scanned.size, List.length_append, List.length_singleton]
  · intro position other found
    rw [result.expression, scanned.size]
    rcases Nat.lt_or_ge position read.length with before | after
    · rw [if_neg (Nat.ne_of_lt before)]
      rw [List.getElem?_append_left before] at found
      exact scanned.expression found
    · rw [List.getElem?_append_right after, List.getElem?_singleton] at found
      split at found
      · rename_i last
        cases found
        have here : position = read.length := by omega
        rw [if_pos here, here]
      · cases found
  · intro position
    have length_eq : tables.scans.length = read.length := by
      rw [← List.length_map (f := ScannedTable.table), scanned.tables_eq]
    rcases Nat.lt_or_ge position read.length with before | after
    · rw [List.getElem?_append_left (length_eq ▸ before), List.getElem?_append_left before,
        scanned.scans]
    · rw [List.getElem?_append_right (length_eq ▸ after), List.getElem?_append_right after,
        length_eq, List.getElem?_singleton, List.getElem?_singleton]
      split
      · rename_i last
        have here : position = read.length := by omega
        rw [here, scanned.size]
        rfl
      · rfl

/-- Reading tables one after the other gives all their scans. -/
theorem foldlM (scanned : Scanned read tables) {rest : List GraphTable} {all : ScannedTables}
    (folded : rest.foldlM ScannedTables.add tables = .ok all) : Scanned (read ++ rest) all := by
  induction rest generalizing read tables with
  | nil =>
      cases folded
      rw [List.append_nil]
      exact scanned
  | cons table rest ih =>
      rw [List.foldlM_cons] at folded
      cases added : tables.add table with
      | error cause =>
          rw [added] at folded
          cases folded
      | ok more =>
          rw [added] at folded
          rw [List.append_cons]
          exact ih (scanned.add added) folded

/-- Tables are read exactly if no reference and no identifier is repeated. -/
theorem foldlM_ok_iff (scanned : Scanned read tables) {rest : List GraphTable} :
    (∃ all, rest.foldlM ScannedTables.add tables = .ok all) ↔
      ((read ++ rest).map GraphTable.reference).Nodup ∧
        ((read ++ rest).map GraphTable.id).Nodup := by
  constructor
  · rintro ⟨all, folded⟩
    exact ⟨(scanned.foldlM folded).references, (scanned.foldlM folded).ids⟩
  · rintro ⟨references, ids⟩
    induction rest generalizing read tables with
    | nil => exact ⟨tables, rfl⟩
    | cons table rest ih =>
        have fresh {α : Type} {key : GraphTable → α}
            (nodup : ((read ++ table :: rest).map key).Nodup) : key table ∉ read.map key := by
          rw [List.map_append, List.map_cons, List.nodup_append] at nodup
          exact fun known => nodup.2.2 _ known _ List.mem_cons_self rfl
        rcases scanned.add_ok_iff.mpr ⟨fresh references, fresh ids⟩ with ⟨more, added⟩
        rw [List.append_cons] at references ids
        rw [List.foldlM_cons, added]
        exact ih (scanned.add added) references ids

end Scanned

end Cascades
