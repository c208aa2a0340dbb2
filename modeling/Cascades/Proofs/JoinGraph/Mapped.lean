import Cascades.JoinGraph.Basic
import Cascades.Proofs.JoinGraph.Carried
import Cascades.Proofs.Memo.Insert
import Cascades.Proofs.Rules.Tables

/-!
# Memos over the tables of a graph

A label of a group is the set of tables that are scanned below it. In a mapped memo every expression,
a logical or a physical one, scans the only table of its group, or it joins two groups without a common
table under a condition that carries the links between them. The graph need not be connected, so there
may be no link between the inputs of a join.
-/

namespace Cascades

open Traversal (Reaches)

namespace Operator

/-- The condition under which a join, of whatever type and algorithm, keeps a pair of rows. -/
def condition? : Operator → Option Scalar
  | .logical (.join _ condition) => some condition
  | .physical (.hashJoin _ _ condition) => some condition
  | .physical (.mergeJoin _ condition) => some condition
  | .physical (.nestedLoopJoin _ condition) => some condition
  | _ => none

@[simp]
theorem condition?_canonical (operator : Operator) :
    operator.canonical.condition? = operator.condition?.map Scalar.canonical := by
  cases operator with
  | logical operator => cases operator <;> rfl
  | physical operator => cases operator <;> rfl

/-- No operator is both a scan and a join. -/
theorem scanned?_eq_none {operator : Operator} {condition : Scalar}
    (condition_eq : operator.condition? = some condition) : operator.scanned? = none := by
  cases operator with
  | logical operator => cases operator <;> first | rfl | cases condition_eq
  | physical operator => cases operator <;> first | rfl | cases condition_eq

end Operator

/-- An operator over labelled groups scans or joins the tables of the group that it is stored in. -/
inductive Sited (links : List Link) (tables : List GraphTable) (label : GroupId → Finset String)
    (group : GroupId) : Operator → List GroupId → Prop
  | scan {operator : Operator} {table : GraphTable} (table_mem : table ∈ tables)
      (scanned_eq : operator.scanned? = some table.reference) (label_eq : label group = {table.name}) :
      Sited links tables label group operator []
  | join {operator : Operator} {condition : Scalar} {left right : GroupId}
      (condition_eq : operator.condition? = some condition)
      (label_eq : label group = label left ∪ label right) (disjoint : Disjoint (label left) (label right))
      (carries : Carries links (label left) (label right) condition) :
      Sited links tables label group operator [left, right]

/-- A memo whose labels are the sets of tables below its groups. -/
structure Mapped (links : List Link) (tables : List GraphTable) (label : GroupId → Finset String)
    (memo : Memo) : Prop where
  consistent : memo.Consistent
  closed : memo.Closed
  sited : ∀ {expression}, memo.expression? expression.id = some expression →
    Sited links tables label expression.group expression.operator expression.children
  inhabited : ∀ {group : Nat}, group < memo.groups.size → ∃ expression,
    memo.expression? expression.id = some expression ∧ expression.group = group ∧
      expression.operator.isLogical = true ∧ ∀ child ∈ expression.children, (child : Nat) < group

variable {links : List Link} {tables : List GraphTable} {label wider : GroupId → Finset String}
  {memo larger : Memo} {group : GroupId} {operator : Operator} {children : List GroupId}

namespace Sited

theorem canonical (sited : Sited links tables label group operator children) :
    Sited links tables label group operator.canonical children := by
  cases sited with
  | scan table_mem scanned_eq label_eq =>
      exact .scan table_mem ((Operator.scanned?_canonical _).trans scanned_eq) label_eq
  | join condition_eq label_eq disjoint carries =>
      refine .join ?_ label_eq disjoint carries.canonical
      rw [Operator.condition?_canonical, condition_eq]
      rfl

theorem congr (sited : Sited links tables label group operator children)
    (group_eq : wider group = label group) (children_eq : ∀ child ∈ children, wider child = label child) :
    Sited links tables wider group operator children := by
  cases sited with
  | scan table_mem scanned_eq label_eq => exact .scan table_mem scanned_eq (group_eq.trans label_eq)
  | @join condition left right condition_eq label_eq disjoint carries =>
      have left_eq := children_eq left (by simp)
      have right_eq := children_eq right (by simp)
      refine .join condition_eq ?_ ?_ ?_ <;> rw [left_eq, right_eq]
      · exact group_eq.trans label_eq
      · exact disjoint
      · exact carries

theorem child_subset (sited : Sited links tables label group operator children) {child : GroupId}
    (child_mem : child ∈ children) : label child ⊆ label group := by
  cases sited with
  | scan table_mem scanned_eq label_eq => cases child_mem
  | join condition_eq label_eq disjoint carries =>
      rw [label_eq]
      rcases List.mem_pair.mp child_mem with rfl | rfl
      · exact Finset.subset_union_left
      · exact Finset.subset_union_right

theorem scans_or_joins (sited : Sited links tables label group operator children) :
    (∃ table, operator.scanned? = some table) ∨ ∃ condition, operator.condition? = some condition := by
  cases sited with
  | scan _ scanned_eq _ => exact .inl ⟨_, scanned_eq⟩
  | join condition_eq _ _ _ => exact .inr ⟨_, condition_eq⟩

theorem of_scanned (sited : Sited links tables label group operator children) {table : TableRef}
    (scanned_eq : operator.scanned? = some table) : label group = {table.name} := by
  cases sited with
  | scan table_mem known label_eq =>
      rw [known] at scanned_eq
      cases scanned_eq
      exact label_eq
  | join condition_eq label_eq disjoint carries =>
      rw [Operator.scanned?_eq_none condition_eq] at scanned_eq
      cases scanned_eq

/-- A join of a mapped memo is sited by its condition. -/
theorem of_condition (sited : Sited links tables label group operator children) {condition : Scalar}
    (condition_eq : operator.condition? = some condition) {left right : GroupId}
    (children_eq : children = [left, right]) : label group = label left ∪ label right ∧
      Disjoint (label left) (label right) ∧ Carries links (label left) (label right) condition := by
  cases sited with
  | scan table_mem scanned_eq label_eq => cases children_eq
  | join known label_eq disjoint carries =>
      cases children_eq
      rw [known] at condition_eq
      cases condition_eq
      exact ⟨label_eq, disjoint, carries⟩

end Sited

namespace Mapped

/-! ## The tables below a group -/

section Tables

variable (mapped : Mapped links tables label memo)
include mapped

theorem sited_of_mem {expression : Expression} (expression_mem : expression ∈ memo.logicalIn group) :
    Sited links tables label group expression.operator expression.children := by
  rcases (Memo.mem_logicalIn mapped.consistent).mp expression_mem with ⟨stored, rfl, -⟩
  exact mapped.sited stored

theorem label_of_reaches {below : GroupId} (reaches : Reaches memo.tableSuccessors group below) :
    label below ⊆ label group := by
  induction reaches with
  | refl => exact Finset.Subset.refl _
  | tail _ next_mem ih =>
      rw [Memo.tableSuccessors_eq] at next_mem
      rcases List.mem_flatMap.mp next_mem with ⟨expression, expression_mem, input_mem⟩
      have child_mem := Expression.mem_children_of_mem_tableInputs input_mem
      exact ((mapped.sited_of_mem expression_mem).child_subset child_mem).trans ih

/-- The tables found below a group are its label. -/
theorem mem_tablesBelow {group : Nat} (group_lt : group < memo.groups.size) (name : String) :
    name ∈ memo.tablesBelow group ↔ name ∈ label group := by
  rw [Memo.mem_tablesBelow]
  constructor
  · rintro ⟨below, reaches, name_mem⟩
    rcases List.mem_map.mp name_mem with ⟨table, table_mem, rfl⟩
    rcases List.mem_filterMap.mp table_mem with ⟨expression, expression_mem, scanned_eq⟩
    refine mapped.label_of_reaches reaches ?_
    rw [(mapped.sited_of_mem expression_mem).of_scanned (Expression.scanned?_operator scanned_eq)]
    exact Finset.mem_singleton_self _
  · intro name_mem
    -- along the expressions that a group was made with, so that the inputs are older
    induction group using Nat.strongRecOn with
    | ind group ih =>
        rcases mapped.inhabited group_lt with ⟨expression, stored, group_eq, logical, older⟩
        have expression_mem : expression ∈ memo.logicalIn group :=
          (Memo.mem_logicalIn mapped.consistent).mpr ⟨stored, group_eq, logical⟩
        have sited := mapped.sited_of_mem expression_mem
        rcases expression with ⟨id, home, operator, inputs, origin, applied⟩
        dsimp only at sited older logical
        cases sited with
        | @scan table table_mem scanned_eq label_eq =>
            refine ⟨group, .refl, List.mem_map.mpr ⟨table.reference, ?_, ?_⟩⟩
            · refine List.mem_filterMap.mpr ⟨_, expression_mem, ?_⟩
              rcases operator with operator | operator
              · cases operator <;> exact scanned_eq
              · cases logical
            · rw [label_eq, Finset.mem_singleton] at name_mem
              exact name_mem.symm
        | @join condition left right condition_eq label_eq disjoint carries =>
            have below {child : Nat} (child_mem : child ∈ [left, right])
                (in_child : name ∈ label child) :
                ∃ node, Reaches memo.tableSuccessors group node ∧ name ∈ memo.tablesIn node := by
              have child_lt := older child child_mem
              rcases ih child child_lt (Nat.lt_trans child_lt group_lt) in_child with
                ⟨node, reaches, listed⟩
              refine ⟨node, Relation.ReflTransGen.head ?_ reaches, listed⟩
              rw [Memo.tableSuccessors_eq]
              refine List.mem_flatMap.mpr ⟨_, expression_mem, ?_⟩
              rcases operator with operator | operator
              · cases operator <;> first | exact child_mem | cases condition_eq
              · cases logical
            rw [label_eq, Finset.mem_union] at name_mem
            rcases name_mem with in_left | in_right
            · exact below (by simp) in_left
            · exact below (by simp) in_right

end Tables

/-! ## Changes -/

section Changes

variable (mapped : Mapped links tables label memo)
include mapped

/-- Marks and flags are no part of a map. -/
theorem same (consistent : larger.Consistent) (closed : larger.Closed) (extension : memo.Extends larger)
    (size_eq : larger.groups.size = memo.groups.size)
    (known : ∀ {later}, larger.expression? later.id = some later →
      ∃ before, memo.expression? before.id = some before ∧ later.unmarked = before.unmarked) :
    Mapped links tables label larger where
  consistent := consistent
  closed := closed
  sited := by
    intro later stored
    rcases known stored with ⟨before, before_stored, same⟩
    rcases Expression.unmarked_eq_iff.mp same with ⟨-, group_eq, operator_eq, children_eq, -⟩
    rw [group_eq, operator_eq, children_eq]
    exact mapped.sited before_stored
  inhabited := by
    intro group group_lt
    rw [size_eq] at group_lt
    rcases mapped.inhabited group_lt with ⟨expression, stored, facts⟩
    rcases extension.expressions stored with ⟨applied, kept, -⟩
    exact ⟨{ expression with applied }, kept, facts⟩

theorem marked {expression : Expression} (stored : memo.expression? expression.id = some expression)
    (rule : RuleId) : Mapped links tables label (memo.marked expression rule) := by
  refine mapped.same (mapped.consistent.marked stored)
    (Memo.Closed.marked mapped.consistent mapped.closed stored)
    (Memo.extends_marked mapped.consistent stored) rfl ?_
  intro later later_stored
  rcases Memo.expression?_of_marked mapped.consistent stored later_stored with
    ⟨before, before_stored, same, -⟩
  have id_eq := mapped.consistent.numbered before_stored
  rw [← id_eq] at before_stored
  exact ⟨before, before_stored, by rw [same]; rfl⟩

theorem flagged {held : Group} (found : memo.group? group = some held) (goal : Goal) :
    Mapped links tables label (memo.flagged group held goal) :=
  mapped.same (mapped.consistent.flagged found) (Memo.Closed.flagged mapped.closed)
    (Memo.extends_flagged found) (by simp [Memo.flagged]) fun stored => ⟨_, stored, rfl⟩

/-- A new sited shape is stored. -/
theorem push {origin : Option RuleId} (group_lt : group < memo.groups.size)
    (exist : ∀ child ∈ children, child < memo.groups.size) (canonical : operator.canonical = operator)
    (missing : memo.find? operator children = none)
    (sited : Sited links tables label group operator children) :
    Mapped links tables label (memo.push group operator children origin) where
  consistent := mapped.consistent.push group_lt canonical missing
  closed := Memo.Closed.push mapped.closed exist
  sited := by
    intro expression stored
    rw [Memo.expression?_push] at stored
    split at stored
    · cases stored
      exact sited
    · exact mapped.sited stored
  inhabited := by
    intro other other_lt
    rw [Memo.size_groups_push] at other_lt
    rcases mapped.inhabited other_lt with ⟨expression, stored, facts⟩
    exact ⟨expression, Memo.expression?_push_of_some stored, facts⟩

/-- A sited shape is stored in its group, or it is found. -/
theorem addTo {origin : Option RuleId} (group_lt : group < memo.groups.size)
    (exist : ∀ child ∈ children, child < memo.groups.size)
    (sited : Sited links tables label group operator children) :
    ∃ next insertion, memo.addTo group operator children origin = .ok (next, insertion) ∧
      Mapped links tables label next ∧ next.groups.size = memo.groups.size := by
  rcases Memo.addTo_succeeds group_lt operator children origin with ⟨next, insertion, added⟩
  refine ⟨next, insertion, added, ?_⟩
  rcases Memo.addTo_cases added with ⟨rfl, -⟩ | ⟨rfl, -, missing⟩
  · exact ⟨mapped, rfl⟩
  · exact ⟨mapped.push group_lt exist (by simp) missing sited.canonical, by simp⟩

end Changes

end Mapped

/-- A larger memo with a map that agrees with an earlier one. -/
structure Remapped (links : List Link) (tables : List GraphTable) (label : GroupId → Finset String)
    (memo : Memo) (wider : GroupId → Finset String) (larger : Memo) : Prop where
  size_le : memo.groups.size ≤ larger.groups.size
  agrees : ∀ {group : Nat}, group < memo.groups.size → wider group = label group
  mapped : Mapped links tables wider larger

namespace Remapped

theorem refl (mapped : Mapped links tables label memo) : Remapped links tables label memo label memo :=
  ⟨Nat.le_refl _, fun _ => rfl, mapped⟩

theorem trans {largest : Memo} {widest : GroupId → Finset String}
    (early : Remapped links tables label memo wider larger)
    (late : Remapped links tables wider larger widest largest) :
    Remapped links tables label memo widest largest where
  size_le := Nat.le_trans early.size_le late.size_le
  agrees := fun group_lt =>
    (late.agrees (Nat.lt_of_lt_of_le group_lt early.size_le)).trans (early.agrees group_lt)
  mapped := late.mapped

/-- A logical join without a group gets one of its own, with the tables of its inputs as label. -/
theorem add (mapped : Mapped links tables label memo) {condition : Scalar} {left right : GroupId}
    (origin : Option RuleId) (left_lt : left < memo.groups.size) (right_lt : right < memo.groups.size)
    (logical : operator.isLogical = true) (condition_eq : operator.condition? = some condition)
    (disjoint : Disjoint (label left) (label right))
    (carries : Carries links (label left) (label right) condition) :
    ∃ next group id wider, memo.add operator [left, right] origin = (next, group, id) ∧
      group < next.groups.size ∧ wider group = label left ∪ label right ∧
        Remapped links tables label memo wider next := by
  have exist : ∀ child ∈ [left, right], child < memo.groups.size := by
    simpa using ⟨left_lt, right_lt⟩
  rw [Memo.add]
  cases known : memo.find? operator.canonical [left, right] with
  | some expression =>
      have stored := mapped.consistent.find?_id known
      rcases Memo.expression?_of_find? known with ⟨-, children_eq, -⟩
      have sited := mapped.sited stored
      rw [children_eq] at sited
      refine ⟨memo, expression.group, expression.id, label, rfl, mapped.consistent.group_lt stored, ?_,
        .refl mapped⟩
      cases sited with
      | join _ label_eq _ _ => exact label_eq
  | none =>
      let widened := Function.update label memo.groups.size (label left ∪ label right)
      have old {group : Nat} (group_lt : group < memo.groups.size) : widened group = label group :=
        Function.update_of_ne (Nat.ne_of_lt group_lt) _ _
      have new : widened memo.groups.size = label left ∪ label right := Function.update_self ..
      have sited : Sited links tables widened memo.groups.size operator [left, right] := by
        refine .join condition_eq ?_ ?_ ?_ <;> rw [old left_lt, old right_lt]
        · exact new
        · exact disjoint
        · exact carries
      have opened_lt : memo.groups.size < memo.opened.groups.size := by simp
      have opened_exist : ∀ child ∈ [left, right], child < memo.opened.groups.size := by
        intro child child_mem
        exact Nat.lt_trans (exist child child_mem) opened_lt
      have pushed : (memo.opened.push memo.groups.size operator.canonical [left, right]
          origin).Consistent :=
        mapped.consistent.opened.push opened_lt (by simp) known
      refine ⟨_, memo.groups.size, memo.expressions.size, widened, rfl, by simp, new, by simp, old,
        pushed, Memo.Closed.push (Memo.Closed.opened mapped.closed) opened_exist, ?_, ?_⟩
      · intro expression stored
        have stored_in : (memo.opened.push memo.groups.size operator.canonical [left, right]
            origin).expression? expression.id = some expression := stored
        rw [Memo.expression?_push] at stored_in
        split at stored_in
        · cases stored_in
          exact sited.canonical
        · have before : memo.expression? expression.id = some expression := stored_in
          refine (mapped.sited before).congr (old (mapped.consistent.group_lt before)) ?_
          exact fun child child_mem => old (mapped.closed before child child_mem)
      · intro other other_lt
        rw [Memo.size_groups_push] at other_lt
        have cases_ : other < memo.groups.size ∨ other = memo.groups.size := by
          simp at other_lt
          omega
        rcases cases_ with before | rfl
        · rcases mapped.inhabited before with ⟨expression, stored, facts⟩
          have kept : memo.opened.expression? expression.id = some expression := stored
          exact ⟨expression, Memo.expression?_push_of_some kept, facts⟩
        · refine ⟨⟨memo.expressions.size, memo.groups.size, operator.canonical, [left, right], origin,
            .empty⟩, ?_, rfl, by simpa using logical, exist⟩
          exact (Memo.expression?_push _).trans (if_pos rfl)

end Remapped

end Cascades
