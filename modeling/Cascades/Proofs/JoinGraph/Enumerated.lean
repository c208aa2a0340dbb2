import Cascades.Proofs.JoinGraph.Completeness
import Cascades.Proofs.JoinGraph.Enumeration

/-!
# The joins of a searched memo

Once the root is explored, every other group turns out to be an input of a join with a larger label, so
all groups are explored. The joins of the memo are therefore closed under commutativity and
associativity, and any two groups that touch and share no table are joined.
-/

namespace Cascades

/-- What a successful search of the left-deep tree of a graph ends with. -/
structure Enumerated (graph : JoinGraph) (planned : PlannedGraph) (first : Nat)
    (stemLabel : GroupId → Finset String) (catalog : Catalog) (label : GroupId → Finset String)
    (memo : Memo) : Prop where
  start : planned.IsLeftDeep graph stemLabel first
  names : (graph.tables.map GraphTable.name).Nodup
  legible : Scalar.Legible (graph.links.map Link.equality)
  saturating : memo.Saturating catalog
  chart : Chart graph.links graph.tables first planned.memo label memo
  born : Born graph.links planned.memo label memo
  explored : memo.Reached planned.root .explore

namespace Enumerated

variable {graph : JoinGraph} {planned : PlannedGraph} {first : Nat} {catalog : Catalog} {memo : Memo}
  {label stemLabel : GroupId → Finset String}
  (enumerated : Enumerated graph planned first stemLabel catalog label memo)
include enumerated

theorem consistent : memo.Consistent :=
  enumerated.saturating.consistent

theorem closed : memo.Closed :=
  enumerated.saturating.closed

theorem deep : LeftDeep graph.links graph.tables stemLabel first planned.memo :=
  enumerated.start.deep

theorem size_le : planned.memo.groups.size ≤ memo.groups.size :=
  enumerated.chart.extends_.size_le

theorem of_joins {group left right : Nat} (joins : memo.Joins group left right) :
    label group = label left ∪ label right ∧ Disjoint (label left) (label right) ∧
      Touch graph.links (label left) (label right) :=
  (enumerated.chart.of_joins enumerated.consistent joins).2

theorem inhabited {group : Nat} (group_lt : group < memo.groups.size) : group < graph.tables.length ∨
    ∃ left right : Nat, left < group ∧ right < group ∧ memo.Joins group left right :=
  enumerated.chart.inhabited enumerated.deep enumerated.born enumerated.consistent group_lt

theorem label_scan {position : Nat} (scan : position < graph.tables.length) :
    label position = {graph.tables[position].name} :=
  (enumerated.chart.scan enumerated.deep enumerated.consistent (List.getElem?_eq_getElem scan)).2

/-! ## Labels -/

/-- What holds of single tables and of linked unions holds of all labels. -/
theorem label_induct (Holds : Finset String → Prop)
    (single : ∀ {position : Nat} (scan : position < graph.tables.length),
      Holds {graph.tables[position].name})
    (union : ∀ {left right}, Holds left → Holds right → Disjoint left right →
      Touch graph.links left right → Holds (left ∪ right))
    {group : Nat} (group_lt : group < memo.groups.size) : Holds (label group) := by
  induction group using Nat.strongRecOn with
  | ind group ih =>
      rcases enumerated.inhabited group_lt with scan | ⟨left, right, left_lt, right_lt, joins⟩
      · rw [enumerated.label_scan scan]
        exact single scan
      · rcases enumerated.of_joins joins with ⟨label_eq, disjoint, touch⟩
        rw [label_eq]
        exact union (ih left left_lt (Nat.lt_trans left_lt group_lt))
          (ih right right_lt (Nat.lt_trans right_lt group_lt)) disjoint touch

theorem within {group : Nat} (group_lt : group < memo.groups.size) : label group ⊆ graph.names := by
  refine enumerated.label_induct (· ⊆ graph.names) ?_
    (fun left right _ _ => Finset.union_subset left right) group_lt
  intro position scan
  rw [Finset.singleton_subset_iff]
  exact JoinGraph.mem_names.mpr ⟨_, List.getElem_mem scan, rfl⟩

theorem linked {group : Nat} (group_lt : group < memo.groups.size) :
    Linked graph.links (label group) :=
  enumerated.label_induct (Linked graph.links) (fun _ => linked_singleton _)
    (fun left right _ touch => left.union right touch) group_lt

/-- The labels of the stem do not depend on the search. -/
theorem label_stem {group : Nat} (group_lt : group < planned.memo.groups.size) :
    label group = stemLabel group := by
  induction group using Nat.strongRecOn with
  | ind group ih =>
      rcases Nat.lt_or_ge group graph.tables.length with scan | from_
      · rw [enumerated.label_scan scan, (enumerated.deep.scan (List.getElem?_eq_getElem scan)).2]
      · rcases enumerated.deep.join from_ group_lt with ⟨right, right_lt, found, label_eq, -⟩
        have joins : planned.memo.Joins group (leftOf graph.tables.length first group) right :=
          ⟨_, enumerated.deep.mem_logicalIn found, rfl⟩
        have left_lt := enumerated.deep.leftOf_lt from_
        have right_before : right < group := Nat.lt_of_lt_of_le right_lt from_
        have kept := joins.mono enumerated.chart.extends_ enumerated.deep.consistent enumerated.consistent
        rw [(enumerated.of_joins kept).1, label_eq, ih _ left_lt (Nat.lt_trans left_lt group_lt),
          ih right right_before (Nat.lt_trans right_before group_lt)]

theorem label_root : label planned.root = graph.names := by
  have root_lt : (planned.root : Nat) < planned.memo.groups.size := by
    rw [enumerated.start.root_eq]
    exact enumerated.deep.leftOf_lt enumerated.deep.enough
  rw [enumerated.label_stem root_lt]
  exact enumerated.start.label_root

/-! ## Parents -/

theorem label_ssubset {group left right : Nat} (joins : memo.Joins group left right) :
    label left ⊂ label group ∧ label right ⊂ label group := by
  rcases enumerated.of_joins joins with ⟨label_eq, disjoint, touch⟩
  rcases touch.single with ⟨table, table_mem, -⟩
  rcases touch.symm.single with ⟨other, other_mem, -⟩
  rw [label_eq]
  refine ⟨(Finset.ssubset_iff_of_subset Finset.subset_union_left).mpr ⟨other, ?_, ?_⟩,
    (Finset.ssubset_iff_of_subset Finset.subset_union_right).mpr ⟨table, ?_, ?_⟩⟩
  · exact Finset.mem_union_right _ other_mem
  · exact Finset.disjoint_right.mp disjoint other_mem
  · exact Finset.mem_union_left _ table_mem
  · exact Finset.disjoint_left.mp disjoint table_mem

/-- The scan of a table below a group of the stem is this group, or it is an input of a join. -/
theorem scan_parent {group position : Nat} (group_lt : group < planned.memo.groups.size)
    (scan : position < graph.tables.length) (below : graph.tables[position].name ∈ label group) :
    position = group ∨ ∃ parent sibling, memo.Joins parent sibling position ∨
      memo.Joins parent position sibling := by
  induction group using Nat.strongRecOn with
  | ind group ih =>
      rcases Nat.lt_or_ge group graph.tables.length with other_scan | from_
      · rw [enumerated.label_scan other_scan, Finset.mem_singleton] at below
        have in_names : position < (graph.tables.map GraphTable.name).length := by simpa using scan
        have other_in_names : group < (graph.tables.map GraphTable.name).length := by
          simpa using other_scan
        have names_eq : (graph.tables.map GraphTable.name)[position] =
            (graph.tables.map GraphTable.name)[group] := by
          simpa using below
        exact .inl ((List.Nodup.getElem_inj_iff enumerated.names).mp names_eq)
      · refine .inr ?_
        rcases enumerated.chart.stem_joins enumerated.deep enumerated.consistent from_ group_lt with
          ⟨right, right_lt, joins⟩
        have left_lt := enumerated.deep.leftOf_lt from_
        have right_before : right < group := Nat.lt_of_lt_of_le right_lt from_
        rw [(enumerated.of_joins joins).1, Finset.mem_union] at below
        rcases below with in_left | in_right
        · rcases ih _ left_lt (Nat.lt_trans left_lt group_lt) in_left with rfl | parent
          · exact ⟨group, right, .inr joins⟩
          · exact parent
        · rcases ih right right_before (Nat.lt_trans right_before group_lt) in_right with rfl | parent
          · exact ⟨group, _, .inl joins⟩
          · exact parent

/-- Every group except the root is an input of a join. -/
theorem has_parent {group : Nat} (group_lt : group < memo.groups.size) : group = planned.root ∨
    ∃ parent sibling, memo.Joins parent sibling group ∨ memo.Joins parent group sibling := by
  have root_eq : (planned.root : Nat) = leftOf graph.tables.length first planned.memo.groups.size :=
    enumerated.start.root_eq
  have root_lt : (planned.root : Nat) < planned.memo.groups.size := by
    rw [root_eq]
    exact enumerated.deep.leftOf_lt enumerated.deep.enough
  rcases Nat.lt_or_ge group planned.memo.groups.size with stem | new
  · rcases Nat.lt_or_ge group graph.tables.length with scan | from_
    · refine enumerated.scan_parent root_lt scan ?_
      rw [enumerated.label_root]
      exact JoinGraph.mem_names.mpr ⟨_, List.getElem_mem scan, rfl⟩
    · rcases Nat.lt_or_ge (group + 1) planned.memo.groups.size with before | last
      · refine .inr ?_
        rcases enumerated.chart.stem_joins enumerated.deep enumerated.consistent
          (Nat.le_succ_of_le from_) before with ⟨right, -, joins⟩
        rw [leftOf, if_neg (by omega), Nat.succ_sub_one] at joins
        exact ⟨group + 1, right, .inr joins⟩
      · refine .inl ?_
        rw [root_eq, leftOf, if_neg (by omega)]
        omega
  · refine .inr ?_
    rcases enumerated.born group new group_lt with ⟨-, -, sibling, parent, -, -, -, -, -, joins, -⟩
    exact ⟨parent, sibling, .inl joins⟩

/-- All groups are explored. -/
theorem all_explored {group : Nat} (group_lt : group < memo.groups.size) :
    memo.Reached group .explore := by
  induction lacks : graph.names.card - (label group).card using Nat.strongRecOn generalizing group with
  | ind lacking ih =>
      rcases enumerated.has_parent group_lt with rfl | ⟨parent, sibling, joins⟩
      · exact enumerated.explored
      · have facts : (∃ expression ∈ memo.logicalIn parent, group ∈ expression.children) ∧
            (parent : Nat) < memo.groups.size ∧ label group ⊂ label parent := by
          rcases joins with joins | joins
          · refine ⟨?_, (joins.lt enumerated.consistent enumerated.closed).1,
              (enumerated.label_ssubset joins).2⟩
            rcases joins with ⟨expression, expression_mem, children_eq⟩
            exact ⟨expression, expression_mem, by simp [children_eq]⟩
          · refine ⟨?_, (joins.lt enumerated.consistent enumerated.closed).1,
              (enumerated.label_ssubset joins).1⟩
            rcases joins with ⟨expression, expression_mem, children_eq⟩
            exact ⟨expression, expression_mem, by simp [children_eq]⟩
        rcases facts with ⟨⟨expression, expression_mem, child_mem⟩, parent_lt, proper⟩
        have more := Finset.card_lt_card proper
        have most := Finset.card_le_card (enumerated.within parent_lt)
        have parent_explored := ih _ (by omega) parent_lt rfl
        exact enumerated.saturating.below parent_explored expression_mem group child_mem

/-! ## Saturation -/

theorem settled {group : Nat} {expression : Expression} (expression_mem : expression ∈ memo.logicalIn group)
    {number : RuleId} {rule : Rule} (pair_mem : (number, rule) ∈ Rules.numberedTransformations) :
    memo.Settled catalog expression rule := by
  rcases (Memo.mem_logicalIn enumerated.consistent).mp expression_mem with ⟨stored, rfl, -⟩
  have group_lt := enumerated.consistent.group_lt stored
  exact enumerated.saturating.settled (enumerated.all_explored group_lt) expression_mem pair_mem

theorem commuted {group left right : Nat} (joins : memo.Joins group left right) :
    ∃ other, memo.Joins other right left := by
  rcases joins with ⟨expression, expression_mem, children_eq⟩
  have drawn := (enumerated.chart.drawn_of_mem enumerated.consistent expression_mem).2
  have pair_mem : (Rules.commutativityId, Rules.joinCommutativity) ∈ Rules.numberedTransformations :=
    List.mem_cons_self
  exact (enumerated.settled expression_mem pair_mem).turned drawn enumerated.consistent children_eq

theorem associated {group outer last stay moved : Nat} (joins : memo.Joins group outer last)
    (parts : memo.Joins outer stay moved ∨ memo.Joins outer moved stay)
    (touch : Touch graph.links (label moved) (label last)) :
    ∃ inner other, memo.Joins inner moved last ∧ memo.Joins other stay inner := by
  rcases joins with ⟨expression, expression_mem, children_eq⟩
  have drawn := (enumerated.chart.drawn_of_mem enumerated.consistent expression_mem).2
  have stored := ((Memo.mem_logicalIn enumerated.consistent).mp expression_mem).1
  have pair_mem : (UInt16.ofNat 1, Rules.joinAssociativity) ∈ Rules.numberedTransformations :=
    List.mem_cons_of_mem _ List.mem_cons_self
  exact (enumerated.settled expression_mem pair_mem).reassociated drawn enumerated.consistent
    enumerated.deep enumerated.chart enumerated.born enumerated.closed enumerated.legible stored
    children_eq parts touch

/-- Two groups are joined in one place only. -/
theorem unique {first_group second_group left right : Nat} (first_joins : memo.Joins first_group left right)
    (second_joins : memo.Joins second_group left right) : first_group = second_group := by
  rcases enumerated.chart.of_joins enumerated.consistent first_joins with
    ⟨⟨expression, expression_mem, children_eq, operator_eq⟩, -⟩
  rcases enumerated.chart.of_joins enumerated.consistent second_joins with
    ⟨⟨other, other_mem, other_children, other_operator⟩, -⟩
  rcases (Memo.mem_logicalIn enumerated.consistent).mp expression_mem with ⟨stored, group_eq, -⟩
  rcases (Memo.mem_logicalIn enumerated.consistent).mp other_mem with ⟨other_stored, other_eq, -⟩
  have same : expression.operator.same other.operator = true := by
    rw [operator_eq, other_operator]
    exact Operator.same_self _
  have id_eq := enumerated.consistent.unique stored other_stored
    (children_eq.trans other_children.symm) same
  rw [id_eq, other_stored] at stored
  cases stored
  exact group_eq.symm.trans other_eq

omit enumerated in
/-- The group that scans a table. -/
def scanOf (graph : JoinGraph) (name : String) : GroupId :=
  (graph.tables.map GraphTable.name).idxOf name

omit enumerated in
theorem scanOf_lt {name : String} (name_mem : name ∈ graph.names) :
    (scanOf graph name : Nat) < graph.tables.length := by
  have bounded := List.idxOf_lt_length_of_mem (List.mem_toFinset.mp name_mem)
  rwa [List.length_map] at bounded

theorem scanOf_name {position : Nat} (scan : position < graph.tables.length) :
    scanOf graph graph.tables[position].name = position := by
  have bounded : position < (graph.tables.map GraphTable.name).length := by
    rwa [List.length_map]
  have found := enumerated.names.idxOf_getElem position bounded
  rwa [List.getElem_map] at found

theorem label_scanOf {name : String} (name_mem : name ∈ graph.names) :
    label (scanOf graph name) = {name} := by
  rcases JoinGraph.mem_names.mp name_mem with ⟨table, table_mem, rfl⟩
  rcases List.getElem_of_mem table_mem with ⟨position, bounded, rfl⟩
  rw [enumerated.scanOf_name bounded]
  exact enumerated.label_scan bounded

theorem origin {group : Nat} (group_lt : group < memo.groups.size) :
    Origin graph.links graph.names label (scanOf graph) memo.Joins group := by
  rcases Nat.lt_or_ge group graph.tables.length with scan | from_
  · have name_mem : graph.tables[group].name ∈ graph.names :=
      JoinGraph.mem_names.mpr ⟨_, List.getElem_mem scan, rfl⟩
    have origin : Origin graph.links graph.names label (scanOf graph) memo.Joins
        (scanOf graph graph.tables[group].name) := .scan name_mem
    rwa [enumerated.scanOf_name scan] at origin
  · rcases Nat.lt_or_ge group planned.memo.groups.size with stem | new
    · rcases enumerated.deep.joins from_ stem with ⟨right, right_lt, start_joins⟩
      have joins := start_joins.mono enumerated.chart.extends_ enumerated.deep.consistent
        enumerated.consistent
      rcases enumerated.commuted joins with ⟨other, turned⟩
      obtain rfl := enumerated.chart.mirrored start_joins turned
      exact .given (enumerated.deep.leftOf_lt from_) (Nat.lt_of_lt_of_le right_lt from_) joins turned
    · rcases enumerated.born group new group_lt with ⟨left, right, sibling, parent, left_lt, right_lt,
        sibling_lt, parent_lt, joins, above, touch⟩
      exact .made left_lt right_lt sibling_lt parent_lt joins above touch

/-- The joins are closed under commutativity and associativity, and every group has a reason. -/
theorem saturated : Saturated graph.links graph.names label memo.groups.size (scanOf graph) memo.Joins where
  exist := fun joins => joins.lt enumerated.consistent enumerated.closed
  label_eq := fun joins => (enumerated.of_joins joins).1
  disjoint := fun joins => (enumerated.of_joins joins).2.1
  touch := fun joins => (enumerated.of_joins joins).2.2
  unique := enumerated.unique
  commuted := enumerated.commuted
  associated := enumerated.associated
  scan_lt := fun name_mem => Nat.lt_of_lt_of_le (scanOf_lt name_mem)
    (Nat.le_trans enumerated.deep.enough enumerated.size_le)
  label_scan := enumerated.label_scanOf
  within := enumerated.within
  linked := enumerated.linked
  parent := by
    intro group group_lt incomplete
    rcases enumerated.has_parent group_lt with rfl | ⟨parent, sibling, joins | joins⟩
    · exact (incomplete enumerated.label_root).elim
    · exact ⟨parent, sibling, joins⟩
    · rcases enumerated.commuted joins with ⟨other, turned⟩
      exact ⟨other, sibling, turned⟩
  origin := enumerated.origin

/-- Groups that touch and share no table are joined, and no others are. -/
theorem joins_iff {left right : Nat} (left_lt : left < memo.groups.size)
    (right_lt : right < memo.groups.size) : (∃ group, memo.Joins group left right) ↔
      Disjoint (label left) (label right) ∧ Touch graph.links (label left) (label right) := by
  constructor
  · rintro ⟨group, joins⟩
    exact (enumerated.of_joins joins).2
  · rintro ⟨disjoint, touch⟩
    exact enumerated.saturated.complete ⟨left_lt, right_lt, disjoint, touch⟩

end Enumerated

end Cascades
