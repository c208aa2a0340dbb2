import Cascades.Proofs.JoinGraph.Charts

/-!
# Charting new joins

New joins keep the chart of a memo if their group is labelled with the tables of their inputs and its
label is part of the labels of all groups of the stem that are not explored. A new group must even have
a smaller label than these. Both results of a reassociation are charted one after the other.
-/

namespace Cascades

namespace Memo

section Joins

variable {memo : Memo} {group : GroupId} {operator : Operator} {children : List GroupId}
  {origin : Option RuleId}

theorem joins_push (consistent : memo.Consistent)
    (pushed : (memo.push group operator children origin).Consistent)
    (logical : operator.isLogical = true) {other left right : GroupId} :
    (memo.push group operator children origin).Joins other left right ↔
      memo.Joins other left right ∨ (other = group ∧ children = [left, right]) := by
  constructor
  · rintro ⟨expression, expression_mem, children_eq⟩
    rcases (mem_logicalIn pushed).mp expression_mem with ⟨stored, rfl, isLogical⟩
    rw [expression?_push] at stored
    split at stored
    · cases stored
      exact .inr ⟨rfl, children_eq⟩
    · exact .inl ⟨expression, (mem_logicalIn consistent).mpr ⟨stored, rfl, isLogical⟩, children_eq⟩
  · rintro (⟨expression, expression_mem, children_eq⟩ | ⟨rfl, rfl⟩)
    · rcases (mem_logicalIn consistent).mp expression_mem with ⟨stored, group_eq, isLogical⟩
      exact ⟨expression, (mem_logicalIn pushed).mpr
        ⟨expression?_push_of_some stored, group_eq, isLogical⟩, children_eq⟩
    · refine ⟨⟨memo.expressions.size, other, operator, [left, right], origin, .empty⟩, ?_, rfl⟩
      exact (mem_logicalIn pushed).mpr ⟨by rw [expression?_push, if_pos rfl], rfl, logical⟩

/-- A logical join that is found is in the group of what is found. -/
theorem joins_of_find? (consistent : memo.Consistent) (logical : operator.isLogical = true)
    {left right : GroupId} {expression : Expression}
    (found : memo.find? operator [left, right] = some expression) :
    memo.Joins expression.group left right := by
  rcases expression?_of_find? found with ⟨-, children_eq, same⟩
  have found_logical : expression.operator.isLogical = true := by
    rw [Operator.same_iff] at same
    cases operator with
    | physical operator => cases logical
    | logical operator =>
        cases operator_eq : expression.operator with
        | logical operator => rfl
        | physical operator =>
            rw [operator_eq] at same
            cases same
  exact ⟨expression, (mem_logicalIn consistent).mpr
    ⟨consistent.find?_id found, rfl, found_logical⟩, children_eq⟩

theorem joins_opened (consistent : memo.Consistent) {other left right : GroupId} :
    memo.opened.Joins other left right ↔ memo.Joins other left right := by
  simp only [Joins, mem_logicalIn consistent, mem_logicalIn consistent.opened, expression?_opened]

end Joins

end Memo

section Charting

variable {links : List Link} {tables : List GraphTable} {first : Nat} {start memo : Memo}
  {label stemLabel : GroupId → Finset String}

theorem Drawn.congr {other : GroupId → Finset String} {expression : Expression}
    (drawn : Drawn links tables label expression) (group_eq : other expression.group = label expression.group)
    (children_eq : ∀ child ∈ expression.children, other child = label child) :
    Drawn links tables other expression := by
  cases drawn with
  | scan found group_same operator_eq no_children label_eq =>
      rw [group_same] at group_eq
      exact .scan found group_same operator_eq no_children (group_eq.trans label_eq)
  | @join left right inputs_eq operator_eq label_eq disjoint touch =>
      have left_eq := children_eq left (by simp [inputs_eq])
      have right_eq := children_eq right (by simp [inputs_eq])
      refine .join inputs_eq ?_ ?_ ?_ ?_ <;> rw [left_eq, right_eq]
      · exact operator_eq
      · exact group_eq.trans label_eq
      · exact disjoint
      · exact touch

namespace Chart

variable (deep : LeftDeep links tables stemLabel first start)
  (chart : Chart links tables first start label memo) (consistent : memo.Consistent)
include chart consistent

/-- A join has two tables at least. -/
theorem label_ne_singleton {group left right : GroupId} (joins : memo.Joins group left right)
    (name : String) : label group ≠ {name} := by
  intro label_eq
  rcases chart.of_joins consistent joins with ⟨-, union_eq, disjoint, touch⟩
  rcases touch.single with ⟨table, table_mem, -⟩
  rcases touch.symm.single with ⟨other, other_mem, -⟩
  have table_eq : table ∈ label group := union_eq ▸ Finset.mem_union_left _ table_mem
  have other_eq : other ∈ label group := union_eq ▸ Finset.mem_union_right _ other_mem
  rw [label_eq, Finset.mem_singleton] at table_eq other_eq
  rw [table_eq] at table_mem
  rw [other_eq] at other_mem
  exact Finset.disjoint_left.mp disjoint table_mem other_mem

/-- A shape of two stored groups that is not found is not joined anywhere. -/
theorem not_joins {left right : GroupId}
    (missing : memo.find? (joinAcross links (label left) (label right)) [left, right] = none)
    {group : GroupId} : ¬ memo.Joins group left right := by
  intro joins
  rcases (chart.of_joins consistent joins).1 with ⟨expression, expression_mem, children_eq, operator_eq⟩
  have stored := ((Memo.mem_logicalIn consistent).mp expression_mem).1
  have found := Memo.find?_of_expression? consistent stored (Operator.same_self expression.operator)
  rw [children_eq, operator_eq, missing] at found
  cases found

include deep

/-- An unexplored group of the stem is the only group of its label. -/
theorem eq_stem {group stem : Nat} (group_lt : group < memo.groups.size)
    (from_ : tables.length ≤ stem) (stem_lt : stem < start.groups.size)
    (unexplored : ¬ memo.Reached stem .explore) (same : label group = label stem) : group = stem := by
  rcases Nat.lt_or_ge group start.groups.size with old | new
  · rcases Nat.lt_or_ge group tables.length with scan | join
    · rcases chart.stem_joins deep consistent from_ stem_lt with ⟨right, -, joins⟩
      have label_eq := (chart.scan deep consistent (List.getElem?_eq_getElem scan)).2
      exact (chart.label_ne_singleton consistent joins _ (same.symm.trans label_eq)).elim
    · rcases Nat.lt_trichotomy group stem with before | here | after
      · exact ((chart.stem_ssubset deep consistent join before stem_lt).ne same).elim
      · exact here
      · exact ((chart.stem_ssubset deep consistent from_ after old).ne same.symm).elim
  · exact ((chart.fenced from_ stem_lt unexplored new group_lt).ne same).elim

/-- A new join in a group whose label is part of the stem that is not explored. -/
theorem push {group left right : Nat} {origin : Option RuleId}
    (pushed : (memo.push group (joinAcross links (label left) (label right)) [left, right]
      origin).Consistent)
    (group_lt : group < memo.groups.size) (unexplored : ¬ memo.Reached group .explore)
    (before : ∀ {stem : Nat}, tables.length ≤ stem → stem < start.groups.size →
      ¬ memo.Reached stem .explore → label group ⊆ label stem)
    (label_eq : label group = label left ∪ label right)
    (disjoint : Disjoint (label left) (label right)) (touch : Touch links (label left) (label right))
    (missing : memo.find? (joinAcross links (label left) (label right)) [left, right] = none) :
    Chart links tables first start label
      (memo.push group (joinAcross links (label left) (label right)) [left, right] origin) := by
  have extension : memo.Extends
      (memo.push group (joinAcross links (label left) (label right)) [left, right] origin) :=
    Memo.extends_push fun _ => unexplored
  refine ⟨chart.extends_.trans extension, ?_, ?_, ?_, ?_, ?_⟩
  · intro expression stored logical
    rw [Memo.expression?_push] at stored
    split at stored
    · cases stored
      exact .join rfl rfl label_eq disjoint touch
    · exact chart.drawn stored logical
  · intro stem other from_ stem_lt stem_unexplored new other_lt
    rw [Memo.reached_push] at stem_unexplored
    rw [Memo.size_groups_push] at other_lt
    exact chart.fenced from_ stem_lt stem_unexplored new other_lt
  · intro stem later from_ after later_lt stem_unexplored other_left other_right joins
    rw [Memo.reached_push] at stem_unexplored
    rcases (Memo.joins_push consistent pushed rfl).mp joins with old | ⟨rfl, -⟩
    · exact chart.plain from_ after later_lt stem_unexplored old
    · exact ((chart.stem_ssubset deep consistent from_ after later_lt).2
        (before from_ (Nat.lt_trans after later_lt) stem_unexplored)).elim
  · intro stem other other_left other_right stem_joins joins
    rcases (Memo.joins_push consistent pushed rfl).mp joins with old | ⟨rfl, children_eq⟩
    · exact chart.mirrored stem_joins old
    · injection children_eq with left_eq right_eq
      injection right_eq with right_eq
      subst left_eq right_eq
      have stem_unexplored : ¬ memo.Reached stem .explore := by
        intro explored
        rcases chart.turned stem_joins explored with ⟨known, turned⟩
        exact chart.not_joins consistent missing turned
      rcases deep.of_joins stem_joins with ⟨from_, stem_lt, -, -⟩
      have stem_eq := (chart.of_joins consistent
        (stem_joins.mono chart.extends_ deep.consistent consistent)).2.1
      refine chart.eq_stem deep consistent group_lt from_ stem_lt stem_unexplored ?_
      rw [label_eq, stem_eq, Finset.union_comm]
  · intro stem other_left other_right stem_joins explored
    rw [Memo.reached_push] at explored
    rcases chart.turned stem_joins explored with ⟨known, turned⟩
    exact ⟨known, turned.mono extension consistent pushed⟩

omit deep in
/-- A new group with a label that is smaller than those of the stem that is not explored. -/
theorem opened (closed : memo.Closed) (fresh : Finset String)
    (smaller : ∀ {stem : Nat}, tables.length ≤ stem → stem < start.groups.size →
      ¬ memo.Reached stem .explore → fresh ⊂ label stem) :
    ∃ wider : GroupId → Finset String, wider memo.groups.size = fresh ∧
      (∀ {group : Nat}, group < memo.groups.size → wider group = label group) ∧
        Chart links tables first start wider memo.opened := by
  have old_label {group : Nat} (group_lt : group < memo.groups.size) :
      Function.update label memo.groups.size fresh group = label group :=
    Function.update_of_ne (Nat.ne_of_lt group_lt) _ _
  have start_le := chart.extends_.size_le
  refine ⟨_, Function.update_self .., old_label, chart.extends_.trans Memo.extends_opened,
    ?_, ?_, ?_, ?_, ?_⟩
  · intro expression stored logical
    have stored_before : memo.expression? expression.id = some expression := stored
    refine (chart.drawn stored logical).congr (old_label (consistent.group_lt stored_before)) ?_
    exact fun child child_mem => old_label (closed stored_before child child_mem)
  · intro stem group from_ stem_lt unexplored new group_lt
    rw [Memo.reached_opened] at unexplored
    rw [Memo.size_groups_opened] at group_lt
    rw [old_label (Nat.lt_of_lt_of_le stem_lt start_le)]
    rcases Nat.lt_or_ge group memo.groups.size with old | last
    · rw [old_label old]
      exact chart.fenced from_ stem_lt unexplored new old
    · obtain rfl : group = memo.groups.size := by omega
      rw [Function.update_self]
      exact smaller from_ stem_lt unexplored
  · intro stem later from_ after later_lt unexplored left right joins
    rw [Memo.reached_opened] at unexplored
    exact chart.plain from_ after later_lt unexplored ((Memo.joins_opened consistent).mp joins)
  · intro stem group left right stem_joins joins
    exact chart.mirrored stem_joins ((Memo.joins_opened consistent).mp joins)
  · intro stem left right stem_joins explored
    rw [Memo.reached_opened] at explored
    rcases chart.turned stem_joins explored with ⟨known, turned⟩
    exact ⟨known, (Memo.joins_opened consistent).mpr turned⟩

end Chart

end Charting

/-! ## Storing results -/

/-- A group in which new joins may be stored. -/
structure Site (tables : List GraphTable) (start : Memo) (label : GroupId → Finset String)
    (memo : Memo) (group : Nat) : Prop where
  lt : group < memo.groups.size
  unexplored : ¬ memo.Reached group .explore
  before : ∀ {stem : Nat}, tables.length ≤ stem → stem < start.groups.size →
    ¬ memo.Reached stem .explore → label group ⊆ label stem

/-- A larger memo with a chart that agrees with an earlier one. -/
structure Charted (links : List Link) (tables : List GraphTable) (first : Nat) (start : Memo)
    (rule : RuleId) (label : GroupId → Finset String) (memo : Memo)
    (wider : GroupId → Finset String) (larger : Memo) : Prop where
  grown : Memo.Grown (some rule) (fun _ => True) memo larger
  agrees : ∀ {group : Nat}, group < memo.groups.size → wider group = label group
  chart : Chart links tables first start wider larger

namespace Charted

variable {links : List Link} {tables : List GraphTable} {first : Nat} {start memo larger : Memo}
  {label wider stemLabel : GroupId → Finset String} {rule : RuleId}

theorem refl (consistent : memo.Consistent) (closed : memo.Closed)
    (chart : Chart links tables first start label memo) :
    Charted links tables first start rule label memo label memo :=
  ⟨.refl consistent closed, fun _ => rfl, chart⟩

theorem trans {largest : Memo} {widest : GroupId → Finset String}
    (early : Charted links tables first start rule label memo wider larger)
    (late : Charted links tables first start rule wider larger widest largest) :
    Charted links tables first start rule label memo widest largest where
  grown := early.grown.trans late.grown
  agrees := fun group_lt => (late.agrees
    (Nat.lt_of_lt_of_le group_lt early.grown.extends_.size_le)).trans (early.agrees group_lt)
  chart := late.chart

/-- A site stays one while joins are stored. -/
theorem site (charted : Charted links tables first start rule label memo wider larger)
    (chart : Chart links tables first start label memo) {group : Nat}
    (site : Site tables start label memo group) : Site tables start wider larger group where
  lt := Nat.lt_of_lt_of_le site.lt charted.grown.extends_.size_le
  unexplored := by
    rw [charted.grown.flags]
    exact site.unexplored
  before := by
    intro stem from_ stem_lt unexplored
    rw [charted.grown.flags] at unexplored
    rw [charted.agrees site.lt,
      charted.agrees (Nat.lt_of_lt_of_le stem_lt chart.extends_.size_le)]
    exact site.before from_ stem_lt unexplored

variable (rule) (deep : LeftDeep links tables stemLabel first start)
  (chart : Chart links tables first start label memo) (consistent : memo.Consistent)
  (closed : memo.Closed)
include deep chart consistent closed

/-- A join of the tables of a site is stored there, unless it is stored already. -/
theorem addTo {group left right : Nat} (site : Site tables start label memo group)
    (left_lt : left < memo.groups.size) (right_lt : right < memo.groups.size)
    (label_eq : label group = label left ∪ label right)
    (disjoint : Disjoint (label left) (label right)) (touch : Touch links (label left) (label right)) :
    ∃ next insertion, memo.addTo group (joinAcross links (label left) (label right)) [left, right]
        (some rule) = .ok (next, insertion) ∧
      Charted links tables first start rule label memo label next ∧
        next.groups.size = memo.groups.size ∧ ∃ holder, next.Joins holder left right ∧
          (holder = group ∨ memo.Joins holder left right) := by
  rcases Memo.addTo_succeeds site.lt (joinAcross links (label left) (label right)) [left, right]
    (some rule) with ⟨next, insertion, added⟩
  refine ⟨next, insertion, added, ?_⟩
  have either := Memo.addTo_cases added
  rw [canonical_joinAcross] at either
  rcases either with ⟨rfl, found, known⟩ | ⟨rfl, -, missing⟩
  · have joins := Memo.joins_of_find? consistent isLogical_joinAcross known
    exact ⟨.refl consistent closed chart, rfl, _, joins, .inr joins⟩
  · have exist : ∀ child ∈ [left, right], child < memo.groups.size := by
      simpa using ⟨left_lt, right_lt⟩
    have grown : Memo.Grown (some rule) (fun _ => True) memo
        (memo.push group (joinAcross links (label left) (label right)) [left, right] (some rule)) :=
      Memo.grown_push consistent closed site.lt exist canonical_joinAcross missing
        (fun _ => site.unexplored) trivial
    refine ⟨⟨grown, fun _ => rfl, ?_⟩, Memo.size_groups_push, group, ?_, .inl rfl⟩
    · exact chart.push deep consistent grown.consistent site.lt site.unexplored site.before label_eq
        disjoint touch missing
    · exact (Memo.joins_push consistent grown.consistent rfl).mpr (.inr ⟨rfl, rfl⟩)

/-- A join in a new group, unless it is stored already. -/
theorem add {left right : Nat} (left_lt : left < memo.groups.size) (right_lt : right < memo.groups.size)
    (disjoint : Disjoint (label left) (label right)) (touch : Touch links (label left) (label right))
    (smaller : ∀ {stem : Nat}, tables.length ≤ stem → stem < start.groups.size →
      ¬ memo.Reached stem .explore → label left ∪ label right ⊂ label stem) :
    ∃ next id, ∃ inner : Nat, memo.add (joinAcross links (label left) (label right)) [left, right]
        (some rule) = (next, inner, id) ∧ next.Joins inner left right ∧
      (∃ wider, Charted links tables first start rule label memo wider next ∧
        wider inner = label left ∪ label right) ∧
        (next = memo ∨ inner = memo.groups.size ∧ next.groups.size = inner + 1 ∧
          ∀ {place expression}, next.expression? place = some expression →
            inner ∉ expression.children) := by
  rw [Memo.add, canonical_joinAcross]
  cases known : memo.find? (joinAcross links (label left) (label right)) [left, right] with
  | some expression =>
      have joins := Memo.joins_of_find? consistent isLogical_joinAcross known
      exact ⟨memo, _, expression.group, rfl, joins,
        ⟨label, .refl consistent closed chart, (chart.of_joins consistent joins).2.1⟩, .inl rfl⟩
  | none =>
      have exist : ∀ child ∈ [left, right], child < memo.groups.size := by
        simpa using ⟨left_lt, right_lt⟩
      have opened_exist : ∀ child ∈ [left, right], child < memo.opened.groups.size := by
        intro child child_mem
        rw [Memo.size_groups_opened]
        exact Nat.lt_succ_of_lt (exist child child_mem)
      have grown : Memo.Grown (some rule) (fun _ => True) memo.opened
          (memo.opened.push memo.groups.size (joinAcross links (label left) (label right))
            [left, right] (some rule)) :=
        Memo.grown_push consistent.opened (Memo.Closed.opened closed) (by simp) opened_exist
          canonical_joinAcross known (fun _ => Memo.not_reached_size) trivial
      have opened_grown : Memo.Grown (some rule) (fun _ => True) memo memo.opened :=
        Memo.grown_opened consistent closed
      rcases chart.opened consistent closed (label left ∪ label right) smaller with
        ⟨wider, inner_label, old_label, opened_chart⟩
      have pushed_chart : Chart links tables first start wider
          (memo.opened.push memo.groups.size (joinAcross links (label left) (label right))
            [left, right] (some rule)) := by
        rw [← old_label left_lt, ← old_label right_lt] at disjoint touch inner_label known grown ⊢
        refine opened_chart.push deep consistent.opened grown.consistent (by simp)
          Memo.not_reached_size ?_ inner_label disjoint touch known
        intro stem from_ stem_lt unexplored
        rw [Memo.reached_opened] at unexplored
        rw [inner_label, old_label left_lt, old_label right_lt,
          old_label (Nat.lt_of_lt_of_le stem_lt chart.extends_.size_le)]
        exact (smaller from_ stem_lt unexplored).1
      refine ⟨_, _, memo.groups.size, rfl, ?_,
        ⟨wider, ⟨opened_grown.trans grown, old_label, pushed_chart⟩, inner_label⟩, .inr ⟨rfl, ?_, ?_⟩⟩
      · exact (Memo.joins_push consistent.opened grown.consistent rfl).mpr (.inr ⟨rfl, rfl⟩)
      · exact Memo.size_groups_push.trans Memo.size_groups_opened
      · intro place expression found child_mem
        rw [Memo.expression?_push] at found
        split at found
        · cases found
          exact Nat.lt_irrefl _ (exist _ child_mem)
        · exact Nat.lt_irrefl _ (closed found _ child_mem)

end Charted

end Cascades
