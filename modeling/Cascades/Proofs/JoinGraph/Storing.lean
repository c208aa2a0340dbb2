import Cascades.Proofs.JoinGraph.Charting
import Cascades.Proofs.Search.Results

/-!
# Storing the results of the join rules

A commuted join has the label of the group that it is stored in. A reassociated join has this label
too, and the join below it has a smaller one. If it gets a group of its own, the join above it is not
stored yet and comes into the group of the original join, which is older. This tells why every new
group exists: it has been made as an input of an older group, beside an older one.
-/

namespace Cascades

/-- A group that is new since the start was made as an input of an older group, beside an older one. -/
def Born (links : List Link) (start : Memo) (label : GroupId → Finset String) (memo : Memo) : Prop :=
  ∀ group : Nat, start.groups.size ≤ group → group < memo.groups.size →
    ∃ left right sibling parent : Nat, left < group ∧ right < group ∧ sibling < group ∧
      parent < group ∧ memo.Joins group left right ∧ memo.Joins parent sibling group ∧
        Touch links (label left) (label sibling)

section Storing

variable {links : List Link} {tables : List GraphTable} {first : Nat} {start memo larger : Memo}
  {label wider stemLabel : GroupId → Finset String} {rule : RuleId}

/-- If the groups that are new in a larger memo are made as inputs of older groups, all are. -/
theorem Born.extend (born : Born links start label memo) (extension : memo.Extends larger)
    (consistent : memo.Consistent) (larger_consistent : larger.Consistent)
    (agrees : ∀ {group : Nat}, group < memo.groups.size → wider group = label group)
    (added : ∀ {group : Nat}, memo.groups.size ≤ group → group < larger.groups.size →
      ∃ left right sibling parent : Nat, left < group ∧ right < group ∧ sibling < group ∧
        parent < group ∧ larger.Joins group left right ∧ larger.Joins parent sibling group ∧
          Touch links (wider left) (wider sibling)) : Born links start wider larger := by
  intro group new group_lt
  rcases Nat.lt_or_ge group memo.groups.size with old | fresh
  · rcases born group new old with
      ⟨left, right, sibling, parent, left_lt, right_lt, sibling_lt, parent_lt, joins, above, touch⟩
    refine ⟨left, right, sibling, parent, left_lt, right_lt, sibling_lt, parent_lt,
      joins.mono extension consistent larger_consistent,
      above.mono extension consistent larger_consistent, ?_⟩
    rw [agrees (Nat.lt_trans left_lt old), agrees (Nat.lt_trans sibling_lt old)]
    exact touch
  · exact added fresh group_lt

theorem Born.same_size (born : Born links start label memo) (extension : memo.Extends larger)
    (consistent : memo.Consistent) (larger_consistent : larger.Consistent)
    (size_eq : larger.groups.size = memo.groups.size) : Born links start label larger := by
  refine born.extend extension consistent larger_consistent (fun _ => rfl) ?_
  intro group fresh group_lt
  rw [size_eq] at group_lt
  exact (Nat.lt_irrefl _ (Nat.lt_of_lt_of_le group_lt fresh)).elim

/-- A memo in which results of a rule have been stored. -/
def Stored (links : List Link) (tables : List GraphTable) (first : Nat) (start : Memo) (rule : RuleId)
    (label : GroupId → Finset String) (memo larger : Memo) : Prop :=
  ∃ wider, Charted links tables first start rule label memo wider larger ∧
    Born links start wider larger

variable (rule) (deep : LeftDeep links tables stemLabel first start)
  (chart : Chart links tables first start label memo) (born : Born links start label memo)
  (consistent : memo.Consistent) (closed : memo.Closed)
include deep chart born consistent closed

/-- Two joined inputs of a site are turned there. -/
theorem inserts_turned {group left right : Nat} (site : Site tables start label memo group)
    (left_lt : left < memo.groups.size) (right_lt : right < memo.groups.size)
    (label_eq : label group = label left ∪ label right)
    (disjoint : Disjoint (label left) (label right)) (touch : Touch links (label left) (label right)) :
    ∃ next, RuleJob.Inserts rule group
        (.substitution (joinAcross links (label left) (label right)) [left, right]) memo next ∧
      Stored links tables first start rule label memo next := by
  have exist : ∀ child ∈ [left, right], child < memo.groups.size := by
    simpa using ⟨left_lt, right_lt⟩
  rcases Charted.addTo rule deep chart consistent closed site left_lt right_lt label_eq
    disjoint touch with ⟨next, insertion, inserted, charted, size_eq, -⟩
  exact ⟨next, .substitution exist inserted, label, charted,
    born.same_size charted.grown.extends_ consistent charted.grown.consistent size_eq⟩

/-- The moved input of a site is joined with the last one below it. -/
theorem inserts_reassociated {group stay moved last : Nat}
    (site : Site tables start label memo group) (stay_lt : stay < memo.groups.size)
    (moved_lt : moved < memo.groups.size) (last_lt : last < memo.groups.size)
    (label_eq : label group = label stay ∪ (label moved ∪ label last))
    (stay_disjoint : Disjoint (label stay) (label moved ∪ label last))
    (disjoint : Disjoint (label moved) (label last))
    (stay_touch : Touch links (label stay) (label moved))
    (touch : Touch links (label moved) (label last)) :
    ∃ next, RuleJob.Inserts rule group
        (.nested (joinAcross links (label stay) (label moved ∪ label last)) [.group stay,
          .fresh (joinAcross links (label moved) (label last)) [.group moved, .group last]])
        memo next ∧ Stored links tables first start rule label memo next := by
  have smaller : label moved ∪ label last ⊂ label group := by
    rcases stay_touch.single with ⟨table, table_mem, -⟩
    rw [label_eq, Finset.ssubset_iff_of_subset Finset.subset_union_right]
    exact ⟨table, Finset.mem_union_left _ table_mem, Finset.disjoint_left.mp stay_disjoint table_mem⟩
  rcases Charted.add rule deep chart consistent closed moved_lt last_lt disjoint touch
    (fun from_ stem_lt unexplored => smaller.trans_subset (site.before from_ stem_lt unexplored)) with
    ⟨middle, id, inner, added_eq, inner_joins, ⟨wider, below, inner_label⟩, fresh⟩
  have inner_lt : (inner : Nat) < middle.groups.size :=
    (inner_joins.lt below.grown.consistent below.grown.closed).1
  have size_le : memo.groups.size ≤ middle.groups.size := below.grown.extends_.size_le
  have top_label : wider group = wider stay ∪ wider inner := by
    rw [below.agrees site.lt, below.agrees stay_lt, inner_label]
    exact label_eq
  have top_disjoint : Disjoint (wider stay) (wider inner) := by
    rw [below.agrees stay_lt, inner_label]
    exact stay_disjoint
  have top_touch : Touch links (wider stay) (wider inner) := by
    rw [below.agrees stay_lt, inner_label]
    exact stay_touch.mono_right Finset.subset_union_left
  rcases Charted.addTo rule deep below.chart below.grown.consistent below.grown.closed
    (below.site chart site) (Nat.lt_of_lt_of_le stay_lt size_le) inner_lt top_label top_disjoint
    top_touch with ⟨next, insertion, inserted, above, size_eq, holder, holder_joins, holder_eq⟩
  have charted := below.trans above
  refine ⟨next, ⟨middle, joinAcross links (label stay) (label moved ∪ label last), [stay, inner],
    insertion, ?_, ?_⟩, wider, charted, ?_⟩
  · have stay_eq : RuleJob.checkGroups rule memo [stay] = .ok () :=
      RuleJob.checkGroups_eq_ok (by simpa using stay_lt)
    have moved_eq : RuleJob.checkGroups rule memo [moved] = .ok () :=
      RuleJob.checkGroups_eq_ok (by simpa using moved_lt)
    have last_eq : RuleJob.checkGroups rule memo [last] = .ok () :=
      RuleJob.checkGroups_eq_ok (by simpa using last_lt)
    simp only [RuleJob.prepare, RuleJob.storeAll, RuleJob.store, stay_eq, moved_eq, last_eq,
      Except.map, added_eq]
  · rw [below.agrees stay_lt, inner_label] at inserted
    exact inserted
  · have extension := charted.grown.extends_
    rcases fresh with rfl | ⟨rfl, middle_size, unused⟩
    · -- nothing has been added to the groups
      have agrees {other : Nat} (other_lt : other < middle.groups.size) : wider other = label other :=
        below.agrees other_lt
      refine born.extend extension consistent charted.grown.consistent agrees ?_
      intro other new other_lt
      rw [size_eq] at other_lt
      exact (Nat.lt_irrefl _ (Nat.lt_of_lt_of_le other_lt new)).elim
    · refine born.extend extension consistent charted.grown.consistent below.agrees ?_
      intro other new other_lt
      rw [size_eq, middle_size] at other_lt
      obtain rfl : other = memo.groups.size := by omega
      have above_joins : next.Joins group stay memo.groups.size := by
        rcases holder_eq with rfl | joined
        · exact holder_joins
        · rcases joined with ⟨expression, expression_mem, children_eq⟩
          have stored := ((Memo.mem_logicalIn below.grown.consistent).mp expression_mem).1
          exact (unused stored (by simp [children_eq])).elim
      refine ⟨moved, last, stay, group, moved_lt, last_lt, stay_lt, site.lt,
        inner_joins.mono above.grown.extends_ below.grown.consistent above.grown.consistent,
        above_joins, ?_⟩
      rw [below.agrees moved_lt, below.agrees stay_lt]
      exact stay_touch.symm

end Storing

end Cascades
