import Cascades.Proofs.Memo.Insert
import Cascades.Proofs.Rules.Tables

/-!
# Tables below groups that grow

The tables below the groups are the least assignment of tables to groups under which every logical
expression has its own table and those of its inputs in its group. So they only grow with the memo.
They stay the same where an expression is added that has no tables but those of its group, and where
it is added in a new group.
-/

namespace Cascades

open Traversal (Reaches)

namespace LogicalOperator

/-- The tables below an operator whose inputs have the given tables below them. -/
def tablesOver (operator : LogicalOperator) (inputs : List (List String)) : List String :=
  match operator with
  | .scan table _ _ => [table.name]
  | _ => inputs.flatten

@[simp]
theorem tablesOver_canonical (operator : LogicalOperator) (inputs : List (List String)) :
    operator.canonical.tablesOver inputs = operator.tablesOver inputs := by
  cases operator <;> rfl

theorem tablesOver_normal (operator : LogicalOperator) (inputs : List (List String)) :
    operator.normal.tablesOver inputs = operator.tablesOver inputs := by
  cases operator <;> rfl

@[simp]
theorem tablesOver_join (type : JoinType) (condition : Scalar) (left right : List String) :
    (join type condition).tablesOver [left, right] = left ++ right := by
  simp [tablesOver]

/-- More tables below the inputs are more tables below the operator. -/
theorem tablesOver_mono {operator : LogicalOperator} {inputs wider : List (List String)}
    (subset : List.Forall₂ (· ⊆ ·) inputs wider) :
    operator.tablesOver inputs ⊆ operator.tablesOver wider := by
  have flatten_subset : inputs.flatten ⊆ wider.flatten := by
    induction subset with
    | nil => exact List.Subset.refl _
    | cons first _ ih =>
        rw [List.flatten_cons, List.flatten_cons]
        exact List.append_subset.mpr ⟨List.Subset.trans first (List.subset_append_left _ _),
          List.Subset.trans ih (List.subset_append_right _ _)⟩
  cases operator with
  | scan table columns predicate => exact List.Subset.refl _
  | _ => exact flatten_subset

end LogicalOperator

namespace Memo

variable {memo larger : Memo} {id group : GroupId} {operator : LogicalOperator}
  {children : List GroupId}

theorem mem_tablesOver {expression : Expression}
    (operator_eq : expression.operator = .logical operator) {tables : GroupId → List String}
    {name : String} :
    name ∈ operator.tablesOver (expression.children.map tables) ↔
      (∃ table, expression.scanned? = some table ∧ table.name = name) ∨
        ∃ input ∈ expression.tableInputs, name ∈ tables input := by
  rw [Expression.scanned?, Expression.tableInputs, operator_eq, LogicalOperator.tablesOver.eq_def]
  cases operator <;> simp [eq_comm]

/-- Groups that have the tables of all their logical expressions have the tables below them. -/
theorem tablesBelow_least (consistent : memo.Consistent) {bound : GroupId → List String}
    (tables_over : ∀ {id expression operator}, memo.expression? id = some expression →
      expression.operator = .logical operator →
        operator.tablesOver (expression.children.map bound) ⊆ bound expression.group)
    (id : GroupId) : memo.tablesBelow id ⊆ bound id := by
  have in_group {id : GroupId} {expression : Expression}
      (expression_mem : expression ∈ memo.logicalIn id) {name : String}
      (found : (∃ table, expression.scanned? = some table ∧ table.name = name) ∨
        ∃ input ∈ expression.tableInputs, name ∈ bound input) : name ∈ bound id := by
    rcases (mem_logicalIn consistent).mp expression_mem with ⟨stored, rfl, isLogical⟩
    cases operator_eq : expression.operator with
    | logical operator =>
        exact tables_over stored operator_eq ((mem_tablesOver operator_eq).mpr found)
    | physical operator =>
        rw [operator_eq] at isLogical
        cases isLogical
  intro name name_mem
  rcases mem_tablesBelow.mp name_mem with ⟨below, reaches, scanned_mem⟩
  clear name_mem
  induction reaches using Relation.ReflTransGen.head_induction_on with
  | refl =>
      rcases List.mem_map.mp scanned_mem with ⟨table, table_mem, name_eq⟩
      rcases List.mem_filterMap.mp table_mem with ⟨expression, expression_mem, scanned⟩
      exact in_group expression_mem (.inl ⟨table, scanned, name_eq⟩)
  | head next_mem _ ih =>
      rw [tableSuccessors_eq] at next_mem
      rcases List.mem_flatMap.mp next_mem with ⟨expression, expression_mem, input_mem⟩
      exact in_group expression_mem (.inr ⟨_, input_mem, ih⟩)

/-- The tables below an expression are below its group. -/
theorem tablesOver_subset (consistent : memo.Consistent) {expression : Expression}
    (stored : memo.expression? id = some expression)
    (operator_eq : expression.operator = .logical operator) :
    operator.tablesOver (expression.children.map memo.tablesBelow) ⊆
      memo.tablesBelow expression.group := by
  have expression_mem : expression ∈ memo.logicalIn expression.group :=
    (mem_logicalIn consistent).mpr
      ⟨(consistent.numbered stored).symm ▸ stored, rfl, by rw [operator_eq]; rfl⟩
  intro name name_mem
  rcases (mem_tablesOver operator_eq).mp name_mem with ⟨table, scanned, name_eq⟩ |
    ⟨input, input_mem, name_mem⟩
  · exact mem_tablesBelow.mpr ⟨_, .refl, List.mem_map.mpr
      ⟨table, List.mem_filterMap.mpr ⟨expression, expression_mem, scanned⟩, name_eq⟩⟩
  · rcases mem_tablesBelow.mp name_mem with ⟨below, reaches, scanned_mem⟩
    refine mem_tablesBelow.mpr ⟨below, .head ?_ reaches, scanned_mem⟩
    rw [tableSuccessors_eq]
    exact List.mem_flatMap.mpr ⟨expression, expression_mem, input_mem⟩

/-- Every expression of a memo, up to its marks, is one of another memo. -/
def Within (memo larger : Memo) : Prop :=
  ∀ {id before}, memo.expression? id = some before → ∃ expression,
    larger.expression? id = some expression ∧ expression.group = before.group ∧
      expression.operator = before.operator ∧ expression.children = before.children

theorem Grows.within (grows : memo.Grows larger) : memo.Within larger := by
  intro id before stored
  rcases grows.expressions stored with ⟨applied, later, -⟩
  exact ⟨_, later, rfl, rfl, rfl⟩

/-- With its expressions, a memo has the tables below its groups in the other memo. -/
theorem Within.tablesBelow_subset (within : memo.Within larger) (consistent : memo.Consistent)
    (larger_consistent : larger.Consistent) (id : GroupId) :
    memo.tablesBelow id ⊆ larger.tablesBelow id := by
  refine tablesBelow_least consistent ?_ id
  intro id before operator stored operator_eq
  rcases within stored with ⟨expression, later, group_eq, same, children_eq⟩
  rw [← group_eq, ← children_eq]
  exact tablesOver_subset larger_consistent later (same.trans operator_eq)

section Push

variable {origin : Option RuleId}

/-- An expression that has no tables but those of its group changes the tables below no group. -/
theorem tablesBelow_push_subset {operator : Operator} (consistent : memo.Consistent)
    (larger_consistent : (memo.push group operator children origin).Consistent)
    (tables_over : ∀ {logical}, operator = .logical logical →
      logical.tablesOver (children.map memo.tablesBelow) ⊆ memo.tablesBelow group) (id : GroupId) :
    (memo.push group operator children origin).tablesBelow id ⊆ memo.tablesBelow id := by
  refine tablesBelow_least larger_consistent ?_ id
  intro id expression other stored operator_eq
  rw [expression?_push] at stored
  split at stored
  · cases stored
    exact tables_over operator_eq
  · exact tablesOver_subset consistent stored operator_eq

/-- An expression in a group of its own has its tables in this group only. -/
theorem tablesBelow_opened_push (consistent : memo.Consistent)
    (larger_consistent :
      (memo.opened.push memo.groups.size (.logical operator) children origin).Consistent)
    (closed : memo.Closed) (exist : ∀ child ∈ children, child < memo.groups.size) :
    (memo.opened.push memo.groups.size (.logical operator) children origin).tablesBelow
          memo.groups.size ⊆ operator.tablesOver (children.map memo.tablesBelow) ∧
      ∀ id < memo.groups.size,
        (memo.opened.push memo.groups.size (.logical operator) children origin).tablesBelow id ⊆
          memo.tablesBelow id := by
  let bound (id : GroupId) : List String :=
    if id = memo.groups.size then operator.tablesOver (children.map memo.tablesBelow)
    else memo.tablesBelow id
  have bound_map {others : List GroupId} (exist : ∀ other ∈ others, other < memo.groups.size) :
      others.map bound = others.map memo.tablesBelow :=
    List.map_congr_left fun id id_mem => if_neg (Nat.ne_of_lt (exist id id_mem))
  have bounded (id : GroupId) :
      (memo.opened.push memo.groups.size (.logical operator) children origin).tablesBelow id ⊆
        bound id := by
    refine tablesBelow_least larger_consistent ?_ id
    intro id expression other stored operator_eq
    rw [expression?_push] at stored
    split at stored
    · cases stored
      cases operator_eq
      rw [bound_map exist]
      simp only [bound, if_pos]
      exact List.Subset.refl _
    · rw [expression?_opened] at stored
      rw [bound_map (closed stored), show bound expression.group = _ from
        if_neg (Nat.ne_of_lt (consistent.group_lt stored))]
      exact tablesOver_subset consistent stored operator_eq
  refine ⟨?_, fun id exists_ => ?_⟩
  · have here := bounded memo.groups.size
    simpa only [bound, if_pos] using here
  · have there := bounded id
    simpa only [bound, if_neg (Nat.ne_of_lt exists_)] using there

end Push

end Memo

end Cascades
