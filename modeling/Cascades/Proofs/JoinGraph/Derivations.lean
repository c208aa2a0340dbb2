import Cascades.Proofs.JoinGraph.Storing
import Cascades.Proofs.Rules.Tables

/-!
# What the rules give for labelled joins

The tables that associativity finds below a group are its label. So commutativity gives a join of the
same tables, and associativity gives the joins whose moved input touches the last one. The other rules
give nothing for scans and joins.
-/

namespace Cascades

open Traversal (Reaches)

section Derivations

variable {links : List Link} {tables : List GraphTable} {first : Nat} {start memo : Memo}
  {label stemLabel : GroupId → Finset String} {expression : Expression}

/-! ## Tables -/

namespace Drawn

variable (drawn : Drawn links tables label expression)
include drawn

theorem scanned {table : TableRef} (scanned_eq : expression.scanned? = some table) :
    label expression.group = {table.name} := by
  cases drawn with
  | @scan position other found group_eq operator_eq children_eq label_eq =>
      rw [Expression.scanned?, operator_eq] at scanned_eq
      cases scanned_eq
      rw [group_eq]
      exact label_eq
  | join children_eq operator_eq label_eq disjoint touch =>
      rw [Expression.scanned?, operator_eq] at scanned_eq
      cases scanned_eq

theorem child_subset {child : GroupId} (child_mem : child ∈ expression.children) :
    label child ⊆ label expression.group := by
  cases drawn with
  | scan found group_eq operator_eq children_eq label_eq =>
      rw [children_eq] at child_mem
      cases child_mem
  | @join left right children_eq operator_eq label_eq disjoint touch =>
      rw [children_eq] at child_mem
      rw [label_eq]
      rcases List.mem_pair.mp child_mem with rfl | rfl
      · exact Finset.subset_union_left
      · exact Finset.subset_union_right

theorem tableInputs_eq : expression.tableInputs = expression.children := by
  cases drawn with
  | scan found group_eq operator_eq children_eq label_eq =>
      rw [Expression.tableInputs, operator_eq, children_eq]
      rfl
  | join children_eq operator_eq label_eq disjoint touch =>
      rw [Expression.tableInputs, operator_eq]
      rfl

end Drawn

namespace Chart

variable (deep : LeftDeep links tables stemLabel first start)
  (chart : Chart links tables first start label memo) (born : Born links start label memo)
  (consistent : memo.Consistent)
include chart consistent

theorem drawn_of_mem {group : GroupId} (expression_mem : expression ∈ memo.logicalIn group) :
    expression.group = group ∧ Drawn links tables label expression := by
  rcases (Memo.mem_logicalIn consistent).mp expression_mem with ⟨stored, group_eq, logical⟩
  exact ⟨group_eq, chart.drawn stored logical⟩

theorem label_of_reaches {group below : GroupId} (reaches : Reaches memo.tableSuccessors group below) :
    label below ⊆ label group := by
  induction reaches with
  | refl => exact Finset.Subset.refl _
  | tail _ next_mem ih =>
      rw [Memo.tableSuccessors_eq] at next_mem
      rcases List.mem_flatMap.mp next_mem with ⟨expression, expression_mem, input_mem⟩
      rcases chart.drawn_of_mem consistent expression_mem with ⟨rfl, drawn⟩
      exact (drawn.child_subset (Expression.mem_children_of_mem_tableInputs input_mem)).trans ih

include deep born

/-- A group without a scan has a join of groups before it. -/
theorem inhabited {group : Nat} (group_lt : group < memo.groups.size) : group < tables.length ∨
    ∃ left right : Nat, left < group ∧ right < group ∧ memo.Joins group left right := by
  rcases Nat.lt_or_ge group tables.length with scan | from_
  · exact .inl scan
  · refine .inr ?_
    rcases Nat.lt_or_ge group start.groups.size with stem | new
    · rcases chart.stem_joins deep consistent from_ stem with ⟨right, right_lt, joins⟩
      exact ⟨_, right, deep.leftOf_lt from_, Nat.lt_of_lt_of_le right_lt from_, joins⟩
    · rcases born group new group_lt with ⟨left, right, -, -, left_lt, right_lt, -, -, joins, -⟩
      exact ⟨left, right, left_lt, right_lt, joins⟩

/-- The tables found below a group are its label. -/
theorem mem_tablesBelow {group : Nat} (group_lt : group < memo.groups.size) {name : String} :
    name ∈ memo.tablesBelow group ↔ name ∈ label group := by
  rw [Memo.mem_tablesBelow]
  constructor
  · rintro ⟨below, reaches, name_mem⟩
    rcases List.mem_map.mp name_mem with ⟨table, table_mem, rfl⟩
    rcases List.mem_filterMap.mp table_mem with ⟨expression, expression_mem, scanned_eq⟩
    rcases chart.drawn_of_mem consistent expression_mem with ⟨rfl, drawn⟩
    refine chart.label_of_reaches consistent reaches ?_
    rw [drawn.scanned scanned_eq]
    exact Finset.mem_singleton_self _
  · intro name_mem
    induction group using Nat.strongRecOn with
    | ind group ih =>
        rcases chart.inhabited deep born consistent group_lt with
          scan | ⟨left, right, left_lt, right_lt, joins⟩
        · rcases chart.scan deep consistent (List.getElem?_eq_getElem scan) with
            ⟨⟨expression, expression_mem, operator_eq, -⟩, label_eq⟩
          rw [label_eq, Finset.mem_singleton] at name_mem
          refine ⟨group, .refl, ?_⟩
          refine List.mem_map.mpr ⟨tables[group].reference, ?_, name_mem.symm⟩
          refine List.mem_filterMap.mpr ⟨expression, expression_mem, ?_⟩
          rw [Expression.scanned?, operator_eq]
          rfl
        · rcases (chart.of_joins consistent joins) with
            ⟨⟨expression, expression_mem, children_eq, -⟩, label_eq, -⟩
          have inputs_eq := (chart.drawn_of_mem consistent expression_mem).2.tableInputs_eq
          have below {child : Nat} (child_lt : child < group) (child_mem : child ∈ [left, right])
              (in_child : name ∈ label child) :
              ∃ node, Reaches memo.tableSuccessors group node ∧ name ∈ memo.tablesIn node := by
            rcases ih child child_lt (Nat.lt_trans child_lt group_lt) in_child with
              ⟨node, reaches, listed⟩
            refine ⟨node, Relation.ReflTransGen.head ?_ reaches, listed⟩
            rw [Memo.tableSuccessors_eq]
            refine List.mem_flatMap.mpr ⟨expression, expression_mem, ?_⟩
            rw [inputs_eq, children_eq]
            exact child_mem
          rw [label_eq, Finset.mem_union] at name_mem
          rcases name_mem with in_left | in_right
          · exact below left_lt (by simp) in_left
          · exact below right_lt (by simp) in_right

end Chart

/-! ## Results -/

namespace Drawn

variable (drawn : Drawn links tables label expression)
include drawn

theorem join?_eq {left right : GroupId} (children_eq : expression.children = [left, right]) :
    expression.join? = some (.inner, conditionAcross links (label left) (label right), left, right) := by
  cases drawn with
  | scan found group_eq operator_eq no_children label_eq =>
      rw [no_children] at children_eq
      cases children_eq
  | join inputs_eq operator_eq label_eq disjoint touch =>
      rw [children_eq] at inputs_eq
      cases inputs_eq
      exact Expression.join?_eq_some.mpr ⟨operator_eq, children_eq⟩

theorem localInnerJoin?_eq {left right : GroupId} (children_eq : expression.children = [left, right]) :
    expression.localInnerJoin? =
      some (conditionAcross links (label left) (label right), left, right) := by
  have join_eq := Expression.join?_eq_some.mp (drawn.join?_eq children_eq)
  exact Expression.localInnerJoin?_eq_some.mpr ⟨join_eq.1, hasOuterRefs_conditionAcross, children_eq⟩

/-- Only joins are turned. -/
theorem mem_commuteJoin {result : RuleResult} : result ∈ Rules.commuteJoin expression ↔
    ∃ left right, expression.children = [left, right] ∧
      result = .substitution (joinAcross links (label right) (label left)) [right, left] := by
  rw [Rules.mem_commuteJoin]
  constructor
  · rintro ⟨type, condition, left, right, join_eq, -, rfl⟩
    have children_eq := (Expression.join?_eq_some.mp join_eq).2
    rw [drawn.join?_eq children_eq] at join_eq
    cases join_eq
    exact ⟨left, right, children_eq, by rw [joinAcross_comm]; rfl⟩
  · rintro ⟨left, right, children_eq, rfl⟩
    exact ⟨_, _, left, right, drawn.join?_eq children_eq, rfl, by rw [joinAcross_comm]; rfl⟩

theorem filteredJoins_eq : Rules.filteredJoins memo expression = [] := by
  rw [Rules.filteredJoins]
  cases drawn with
  | scan found group_eq operator_eq children_eq label_eq =>
      rw [operator_eq]
      rfl
  | join children_eq operator_eq label_eq disjoint touch =>
      rw [operator_eq]
      rfl

theorem projectedScans_eq : Rules.projectedScans memo expression = [] := by
  rw [Rules.projectedScans]
  cases drawn with
  | scan found group_eq operator_eq children_eq label_eq =>
      rw [operator_eq]
      rfl
  | join children_eq operator_eq label_eq disjoint touch =>
      rw [operator_eq]
      rfl

end Drawn

/-- The reassociation of a join that moves one input below. -/
def reassociation (links : List Link) (label : GroupId → Finset String) (stay moved last : GroupId) :
    RuleResult :=
  .nested (joinAcross links (label stay) (label moved ∪ label last))
    [.group stay, .fresh (joinAcross links (label moved) (label last)) [.group moved, .group last]]

namespace Chart

variable (deep : LeftDeep links tables stemLabel first start)
  (chart : Chart links tables first start label memo) (born : Born links start label memo)
  (consistent : memo.Consistent) (closed : memo.Closed)
  (legible : Scalar.Legible (links.map Link.equality))
include chart consistent closed

/-- The parts of a group, in the order that they are needed in. -/
theorem parts {outer stay moved : Nat} (parts : memo.Joins outer stay moved ∨ memo.Joins outer moved stay) :
    label outer = label stay ∪ label moved ∧ Disjoint (label stay) (label moved) ∧
      Touch links (label stay) (label moved) ∧ stay < memo.groups.size ∧ moved < memo.groups.size := by
  rcases parts with joins | joins
  · rcases chart.of_joins consistent joins with ⟨-, label_eq, apart, inner_touch⟩
    exact ⟨label_eq, apart, inner_touch, (joins.lt consistent closed).2⟩
  · rcases chart.of_joins consistent joins with ⟨-, label_eq, apart, inner_touch⟩
    exact ⟨label_eq.trans (Finset.union_comm _ _), apart.symm, inner_touch.symm,
      (joins.lt consistent closed).2.symm⟩

include deep born legible

/-- An input is moved if it touches the last one. -/
theorem mem_reassociate {outer stay moved last : Nat}
    (parts : memo.Joins outer stay moved ∨ memo.Joins outer moved stay)
    (last_lt : last < memo.groups.size) (disjoint : Disjoint (label outer) (label last))
    (touch : Touch links (label outer) (label last)) (result : RuleResult) :
    result ∈ Rules.reassociate (conditionAcross links (label outer) (label last))
        (conditionAcross links (label stay) (label moved)) stay moved last
        (memo.tablesBelow moved) (memo.tablesBelow last) ↔
      Touch links (label moved) (label last) ∧ result = reassociation links label stay moved last := by
  rcases chart.parts consistent closed parts with ⟨outer_eq, apart, inner_touch, -, moved_lt⟩
  rw [outer_eq] at disjoint touch ⊢
  rcases Finset.disjoint_union_left.mp disjoint with ⟨stay_last, moved_last⟩
  rw [reassociate_across legible apart stay_last moved_last inner_touch touch
    (fun _ => chart.mem_tablesBelow deep born consistent moved_lt)
    (fun _ => chart.mem_tablesBelow deep born consistent last_lt), ← crossing_ne_nil]
  split
  · rename_i none
    simp [none]
  · rename_i some
    rw [List.mem_singleton]
    exact ⟨fun same => ⟨some, same⟩, And.right⟩

/-- Associativity gives all reassociations whose moved input touches the last one. -/
theorem mem_associations (stored : memo.expression? expression.id = some expression)
    (drawn : Drawn links tables label expression) {result : RuleResult} :
    result ∈ Rules.associations memo expression ↔
      ∃ outer last stay moved : Nat, expression.children = [outer, last] ∧
        (memo.Joins outer stay moved ∨ memo.Joins outer moved stay) ∧
          Touch links (label moved) (label last) ∧
            result = reassociation links label stay moved last := by
  -- the joins that can be taken apart are all joins of the left input
  have inner_iff {outer : GroupId} {inner : Scalar × GroupId × GroupId} :
      inner ∈ (memo.logicalIn outer).filterMap Expression.localInnerJoin? ↔
        ∃ left right, memo.Joins outer left right ∧
          inner = (conditionAcross links (label left) (label right), left, right) := by
    rw [List.mem_filterMap]
    constructor
    · rintro ⟨input, input_mem, inner_eq⟩
      rcases inner with ⟨condition, left, right⟩
      have children_eq := (Expression.localInnerJoin?_eq_some.mp inner_eq).2.2
      rw [(chart.drawn_of_mem consistent input_mem).2.localInnerJoin?_eq children_eq] at inner_eq
      cases inner_eq
      exact ⟨left, right, ⟨input, input_mem, children_eq⟩, rfl⟩
    · rintro ⟨left, right, ⟨input, input_mem, children_eq⟩, rfl⟩
      exact ⟨input, input_mem,
        (chart.drawn_of_mem consistent input_mem).2.localInnerJoin?_eq children_eq⟩
  rw [Rules.associations]
  cases drawn with
  | scan found group_eq operator_eq children_eq label_eq =>
      rw [Expression.join?, operator_eq, children_eq]
      simp [GraphTable.scan]
  | @join outer last children_eq operator_eq label_eq disjoint touch =>
      have join_eq := (Drawn.join children_eq operator_eq label_eq disjoint touch :
        Drawn links tables label expression).join?_eq children_eq
      have last_lt : (last : Nat) < memo.groups.size := closed stored last (by simp [children_eq])
      have member {stay moved : Nat}
          (parts : memo.Joins outer stay moved ∨ memo.Joins outer moved stay) :=
        chart.mem_reassociate deep born consistent closed legible parts last_lt disjoint touch
          result
      rw [join_eq]
      dsimp only
      rw [List.mem_flatMap]
      constructor
      · rintro ⟨inner, inner_mem, result_mem⟩
        rcases inner_iff.mp inner_mem with ⟨left, right, joins, rfl⟩
        rcases List.mem_append.mp result_mem with moves_right | moves_left
        · rcases (member (.inl joins)).mp moves_right with ⟨moves, result_eq⟩
          exact ⟨outer, last, left, right, children_eq, .inl joins, moves, result_eq⟩
        · rw [@conditionAcross_comm links (label left)] at moves_left
          rcases (member (.inr joins)).mp moves_left with ⟨moves, result_eq⟩
          exact ⟨outer, last, right, left, children_eq, .inr joins, moves, result_eq⟩
      · rintro ⟨other, final, stay, moved, inputs_eq, parts, moves, result_eq⟩
        rw [children_eq] at inputs_eq
        cases inputs_eq
        have result_mem := (member parts).mpr ⟨moves, result_eq⟩
        rcases parts with joins | joins
        · exact ⟨_, inner_iff.mpr ⟨stay, moved, joins, rfl⟩, List.mem_append_left _ result_mem⟩
        · rw [@conditionAcross_comm links (label stay)] at result_mem
          exact ⟨_, inner_iff.mpr ⟨moved, stay, joins, rfl⟩, List.mem_append_right _ result_mem⟩

end Chart

end Derivations

end Cascades
