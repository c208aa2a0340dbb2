import Cascades.Proofs.JoinGraph.LeftDeep
import Cascades.Proofs.Rules.Transformations

/-!
# Charts of a search

While a left-deep tree of joins is searched, every group has a label, the set of tables below it, and
every join has the condition that belongs to the labels of its inputs. The groups of the tree are its
stem.

Commutativity has to turn the joins of the stem where they are: a turned join in another group would
be missing from the stem. It does, because the groups made while a group of the stem is not explored
have smaller labels than this group.
-/

namespace Cascades

namespace Memo

/-- A logical expression of a group joins two groups. -/
def Joins (memo : Memo) (group left right : GroupId) : Prop :=
  ∃ expression ∈ memo.logicalIn group, expression.children = [left, right]

section Joins

variable {memo larger : Memo} {group left right : GroupId}

theorem mem_logicalIn_mono (extension : memo.Extends larger) (consistent : memo.Consistent)
    (larger_consistent : larger.Consistent) {expression : Expression}
    (expression_mem : expression ∈ memo.logicalIn group) :
    ∃ applied, { expression with applied } ∈ larger.logicalIn group := by
  rcases (mem_logicalIn consistent).mp expression_mem with ⟨stored, group_eq, logical⟩
  rcases extension.expressions stored with ⟨applied, kept, -⟩
  exact ⟨applied, (mem_logicalIn larger_consistent).mpr ⟨kept, group_eq, logical⟩⟩

theorem Joins.mono (extension : memo.Extends larger) (consistent : memo.Consistent)
    (larger_consistent : larger.Consistent) (joins : memo.Joins group left right) :
    larger.Joins group left right := by
  rcases joins with ⟨expression, expression_mem, children_eq⟩
  rcases mem_logicalIn_mono extension consistent larger_consistent expression_mem with
    ⟨applied, kept⟩
  exact ⟨_, kept, children_eq⟩

theorem Joins.lt (consistent : memo.Consistent) (closed : memo.Closed)
    (joins : memo.Joins group left right) :
    group < memo.groups.size ∧ left < memo.groups.size ∧ right < memo.groups.size := by
  rcases joins with ⟨expression, expression_mem, children_eq⟩
  rcases (mem_logicalIn consistent).mp expression_mem with ⟨stored, rfl, -⟩
  have exist := closed stored
  rw [children_eq] at exist
  exact ⟨consistent.group_lt stored, exist left (by simp), exist right (by simp)⟩

end Joins

end Memo

/-- The label of the group of a logical expression is the set of tables that it scans or joins. -/
inductive Drawn (links : List Link) (tables : List GraphTable) (label : GroupId → Finset String)
    (expression : Expression) : Prop
  | scan {position : Nat} {table : GraphTable} (found : tables[position]? = some table)
      (group_eq : expression.group = position) (operator_eq : expression.operator = table.scan)
      (children_eq : expression.children = []) (label_eq : label position = {table.name})
  | join {left right : GroupId} (children_eq : expression.children = [left, right])
      (operator_eq : expression.operator = joinAcross links (label left) (label right))
      (label_eq : label expression.group = label left ∪ label right)
      (disjoint : Disjoint (label left) (label right))
      (touch : Touch links (label left) (label right))

/-- What the groups of a search from a left-deep tree are labelled with. -/
structure Chart (links : List Link) (tables : List GraphTable) (first : Nat) (start : Memo)
    (label : GroupId → Finset String) (memo : Memo) : Prop where
  extends_ : start.Extends memo
  drawn : ∀ {expression}, memo.expression? expression.id = some expression →
    expression.operator.isLogical = true → Drawn links tables label expression
  fenced : ∀ {stem group : Nat}, tables.length ≤ stem → stem < start.groups.size →
    ¬ memo.Reached stem .explore → start.groups.size ≤ group → group < memo.groups.size →
      label group ⊂ label stem
  plain : ∀ {stem later : Nat}, tables.length ≤ stem → stem < later → later < start.groups.size →
    ¬ memo.Reached stem .explore → ∀ {left right}, memo.Joins later left right →
      left = leftOf tables.length first later
  mirrored : ∀ {stem group left right}, start.Joins stem left right →
    memo.Joins group right left → group = stem
  turned : ∀ {stem left right}, start.Joins stem left right → memo.Reached stem .explore →
    ∃ group, memo.Joins group right left

/-! ## The stem -/

section Stem

variable {links : List Link} {tables : List GraphTable} {first : Nat} {start memo : Memo}
  {label stemLabel : GroupId → Finset String}

namespace LeftDeep

variable (deep : LeftDeep links tables stemLabel first start)
include deep

theorem consistent : start.Consistent :=
  deep.discrete.built.consistent

theorem mem_logicalIn {id : ExprId} {expression : Expression}
    (found : start.expression? id = some expression) : expression ∈ start.logicalIn id := by
  rcases deep.discrete.expressions found with ⟨id_eq, group_eq, logical, -⟩
  rw [Memo.mem_logicalIn deep.consistent, id_eq]
  exact ⟨found, group_eq, logical⟩

/-- The group of the stem after the scans are joins. -/
theorem joins {stem : Nat} (from_ : tables.length ≤ stem) (stem_lt : stem < start.groups.size) :
    ∃ right : Nat, right < tables.length ∧ start.Joins stem (leftOf tables.length first stem) right := by
  rcases deep.join from_ stem_lt with ⟨right, right_lt, found, -⟩
  exact ⟨right, right_lt, _, deep.mem_logicalIn found, rfl⟩

/-- There are no other joins at the start. -/
theorem of_joins {stem left right : Nat} (joins : start.Joins stem left right) :
    tables.length ≤ stem ∧ stem < start.groups.size ∧ left = leftOf tables.length first stem ∧
      right < tables.length := by
  rcases joins with ⟨expression, expression_mem, children_eq⟩
  rcases (Memo.mem_logicalIn deep.consistent).mp expression_mem with ⟨stored, group_eq, -⟩
  have id_eq := (deep.discrete.expressions stored).2.1
  rw [group_eq] at id_eq
  rw [← id_eq] at stored
  have stem_lt : (stem : Nat) < start.groups.size := deep.discrete.expression?_lt stored
  rcases Nat.lt_or_ge stem tables.length with scan | from_
  · have known := (deep.scan (List.getElem?_eq_getElem scan)).1
    rw [stored] at known
    cases known
    cases children_eq
  · rcases deep.join from_ stem_lt with ⟨other, other_lt, known, -⟩
    rw [stored] at known
    cases known
    cases children_eq
    exact ⟨from_, stem_lt, rfl, other_lt⟩

end LeftDeep

namespace Chart

variable (deep : LeftDeep links tables stemLabel first start)
  (chart : Chart links tables first start label memo) (consistent : memo.Consistent)
include chart consistent

omit deep

/-- A join has the label and the condition of its inputs. -/
theorem of_joins {group left right : GroupId} (joins : memo.Joins group left right) :
    (∃ expression ∈ memo.logicalIn group, expression.children = [left, right] ∧
      expression.operator = joinAcross links (label left) (label right)) ∧
        label group = label left ∪ label right ∧ Disjoint (label left) (label right) ∧
          Touch links (label left) (label right) := by
  rcases joins with ⟨expression, expression_mem, children_eq⟩
  rcases (Memo.mem_logicalIn consistent).mp expression_mem with ⟨stored, rfl, logical⟩
  cases chart.drawn stored logical with
  | scan _ _ _ no_children _ =>
      rw [no_children] at children_eq
      cases children_eq
  | join inputs_eq operator_eq label_eq disjoint touch =>
      rw [children_eq] at inputs_eq
      cases inputs_eq
      exact ⟨⟨expression, expression_mem, children_eq, operator_eq⟩, label_eq, disjoint, touch⟩

include deep

/-- The scans of the start stay, with their tables as labels. -/
theorem scan {position : Nat} {table : GraphTable} (found : tables[position]? = some table) :
    (∃ expression ∈ memo.logicalIn position, expression.operator = table.scan ∧
      expression.children = []) ∧ label position = {table.name} := by
  have stored := (deep.scan found).1
  rcases chart.extends_.expressions stored with ⟨applied, kept, -⟩
  have kept_mem : ⟨position, position, table.scan, [], none, applied⟩ ∈ memo.logicalIn position :=
    (Memo.mem_logicalIn consistent).mpr ⟨kept, rfl, rfl⟩
  refine ⟨⟨_, kept_mem, rfl, rfl⟩, ?_⟩
  have drawn : Drawn links tables label ⟨position, position, table.scan, [], none, applied⟩ :=
    chart.drawn kept rfl
  cases drawn with
  | scan other_found group_eq _ _ label_eq =>
      obtain rfl : position = _ := group_eq
      rw [found] at other_found
      cases other_found
      exact label_eq
  | join children_eq _ _ _ _ => cases children_eq

theorem stem_joins {stem : Nat} (from_ : tables.length ≤ stem) (stem_lt : stem < start.groups.size) :
    ∃ right : Nat, right < tables.length ∧ memo.Joins stem (leftOf tables.length first stem) right := by
  rcases deep.joins from_ stem_lt with ⟨right, right_lt, joins⟩
  exact ⟨right, right_lt, joins.mono chart.extends_ deep.consistent consistent⟩

/-- Labels grow along the stem. -/
theorem stem_ssubset {stem later : Nat} (from_ : tables.length ≤ stem) (before : stem < later)
    (later_lt : later < start.groups.size) : label stem ⊂ label later := by
  induction later with
  | zero => exact (Nat.not_lt_zero stem before).elim
  | succ previous ih =>
      rcases chart.stem_joins deep consistent (Nat.le_trans from_ (Nat.le_of_lt before)) later_lt with
        ⟨right, right_lt, joins⟩
      have left_eq : leftOf tables.length first (previous + 1) = previous := by
        rw [leftOf, if_neg (by omega), Nat.add_sub_cancel]
      rw [left_eq] at joins
      rcases chart.of_joins consistent joins with ⟨-, label_eq, disjoint, touch⟩
      have step : label previous ⊂ label (previous + 1) := by
        rcases touch.symm.single with ⟨table, table_mem, -⟩
        rw [label_eq, Finset.ssubset_iff_of_subset Finset.subset_union_left]
        exact ⟨table, Finset.mem_union_right _ table_mem,
          Finset.disjoint_right.mp disjoint table_mem⟩
      rcases Nat.lt_or_ge stem previous with strictly | here
      · exact (ih strictly (Nat.lt_of_succ_lt later_lt)).trans step
      · obtain rfl : stem = previous := by omega
        exact step

/-- The stem below an explored group of the stem is explored. -/
theorem stem_explored (below : memo.ExploredBelow) {stem later : Nat} (from_ : tables.length ≤ stem)
    (before : stem ≤ later) (later_lt : later < start.groups.size)
    (explored : memo.Reached later .explore) : memo.Reached stem .explore := by
  induction later with
  | zero => exact (Nat.le_zero.mp before) ▸ explored
  | succ previous ih =>
      rcases Nat.lt_or_ge stem (previous + 1) with strictly | here
      · rcases chart.stem_joins deep consistent (Nat.le_trans from_ before) later_lt with
          ⟨right, right_lt, expression, expression_mem, children_eq⟩
        have left_eq : leftOf tables.length first (previous + 1) = previous := by
          rw [leftOf, if_neg (by omega), Nat.add_sub_cancel]
        rw [left_eq] at children_eq
        exact ih (Nat.le_of_lt_succ strictly) (Nat.lt_of_succ_lt later_lt)
          (below explored expression_mem previous (by simp [children_eq]))
      · obtain rfl : stem = previous + 1 := by omega
        exact explored

/--
While a group of the stem is not explored, joins over explored groups are in groups whose labels are
part of its label.
-/
theorem subset_stem (closed : memo.Closed) (below : memo.ExploredBelow) {group left right : Nat}
    (joins : memo.Joins group left right) (left_explored : memo.Reached left .explore) {stem : Nat}
    (from_ : tables.length ≤ stem) (stem_lt : stem < start.groups.size)
    (unexplored : ¬ memo.Reached stem .explore) : label group ⊆ label stem := by
  have group_lt : (group : Nat) < memo.groups.size := (joins.lt consistent closed).1
  rcases Nat.lt_or_ge group start.groups.size with old | new
  · rcases Nat.lt_or_ge group tables.length with scan | join
    · -- the group of a scan has a single table, and a join has two
      have label_eq := (chart.scan deep consistent (List.getElem?_eq_getElem scan)).2
      rcases chart.of_joins consistent joins with ⟨-, union_eq, disjoint, touch⟩
      rcases touch.single with ⟨table, table_mem, -⟩
      rcases touch.symm.single with ⟨other, other_mem, -⟩
      have table_eq : table ∈ label group := union_eq ▸ Finset.mem_union_left _ table_mem
      have other_eq : other ∈ label group := union_eq ▸ Finset.mem_union_right _ other_mem
      rw [label_eq, Finset.mem_singleton] at table_eq other_eq
      rw [table_eq] at table_mem
      rw [other_eq] at other_mem
      exact (Finset.disjoint_left.mp disjoint table_mem other_mem).elim
    · rcases Nat.lt_trichotomy group stem with before | rfl | after
      · exact (chart.stem_ssubset deep consistent join before stem_lt).1
      · exact Finset.Subset.refl _
      · obtain rfl := chart.plain from_ after old unexplored joins
        have left_eq : leftOf tables.length first group = group - 1 := by
          rw [leftOf, if_neg (by omega)]
        rw [left_eq] at left_explored
        exact (unexplored (chart.stem_explored deep consistent below from_ (by omega) (by omega)
          left_explored)).elim
  · exact (chart.fenced from_ stem_lt unexplored new group_lt).1

end Chart

end Stem

end Cascades
