import Cascades.Proofs.JoinGraph.Derivations
import Cascades.Proofs.Search.Saturation

/-!
# Steps of a labelled search

Marks, flags and physical expressions change neither the groups nor their joins. A transformation of an
expression over explored groups stores its results in a group of the tables that they join, so the
labels stay right. A group of the stem can only be marked as explored once its join has been turned.
-/

namespace Cascades

open Rules (numberedTransformations numberedImplementations)

/-! ## Changes without new joins -/

/-- A larger memo with the same groups and, up to marks, the same logical expressions. -/
structure Memo.Alike (memo larger : Memo) : Prop where
  consistent : larger.Consistent
  closed : larger.Closed
  extends_ : memo.Extends larger
  size_eq : larger.groups.size = memo.groups.size
  logical : ∀ {later}, larger.expression? later.id = some later → later.operator.isLogical = true →
    ∃ before, memo.expression? before.id = some before ∧ later.unmarked = before.unmarked

namespace Memo.Alike

variable {memo larger : Memo} {expression : Expression}

theorem trans {largest : Memo} (early : memo.Alike larger) (late : larger.Alike largest) :
    memo.Alike largest where
  consistent := late.consistent
  closed := late.closed
  extends_ := early.extends_.trans late.extends_
  size_eq := late.size_eq.trans early.size_eq
  logical := by
    intro later stored logical
    rcases late.logical stored logical with ⟨middle, middle_stored, same⟩
    have operator_eq := (Expression.unmarked_eq_iff.mp same).2.2.1
    rw [operator_eq] at logical
    rcases early.logical middle_stored logical with ⟨before, before_stored, before_same⟩
    exact ⟨before, before_stored, same.trans before_same⟩

theorem refl (consistent : memo.Consistent) (closed : memo.Closed) : memo.Alike memo :=
  ⟨consistent, closed, .refl memo, rfl, fun stored _ => ⟨_, stored, rfl⟩⟩

theorem marked (consistent : memo.Consistent) (closed : memo.Closed)
    (stored : memo.expression? expression.id = some expression) (rule : RuleId) :
    memo.Alike (memo.marked expression rule) where
  consistent := consistent.marked stored
  closed := Memo.Closed.marked consistent closed stored
  extends_ := extends_marked consistent stored
  size_eq := rfl
  logical := by
    intro later later_stored _
    rcases expression?_of_marked consistent stored later_stored with ⟨before, before_stored, same, -⟩
    have id_eq := consistent.numbered before_stored
    rw [← id_eq] at before_stored
    exact ⟨before, before_stored, by rw [same]; rfl⟩

theorem flagged (consistent : memo.Consistent) (closed : memo.Closed) {id : GroupId} {group : Group}
    (found : memo.group? id = some group) (goal : Goal) : memo.Alike (memo.flagged id group goal) where
  consistent := consistent.flagged found
  closed := Memo.Closed.flagged closed
  extends_ := extends_flagged found
  size_eq := by simp [Memo.flagged]
  logical := fun later_stored _ => ⟨_, later_stored, rfl⟩

/-- A physical expression is inserted. -/
theorem inserts (consistent : memo.Consistent) (closed : memo.Closed) {rule : RuleId} {group : GroupId}
    (group_lt : group < memo.groups.size) {operator : Operator} {children : List GroupId}
    (physical : operator.isLogical = false) (exist : ∀ child ∈ children, child < memo.groups.size) :
    ∃ next, RuleJob.Inserts rule group (.substitution operator children) memo next ∧
      memo.Alike next := by
  rcases addTo_succeeds group_lt operator children (some rule) with ⟨next, insertion, added⟩
  refine ⟨next, .substitution exist added, ?_⟩
  rcases addTo_cases added with ⟨rfl, -⟩ | ⟨rfl, -, missing⟩
  · exact refl consistent closed
  · have unlogical : operator.canonical.isLogical = false := by
      rw [Operator.isLogical_canonical, physical]
    have grown : Grown (some rule) (fun made => made.operator = operator.canonical) memo
        (memo.push group operator.canonical children (some rule)) :=
      grown_push consistent closed group_lt exist (by simp) missing (by simp [physical]) rfl
    refine ⟨grown.consistent, grown.closed, grown.extends_, size_groups_push, ?_⟩
    intro later stored logical
    rcases grown.fresh stored with old | ⟨-, -, -, operator_eq⟩
    · exact ⟨later, old, rfl⟩
    · rw [operator_eq, unlogical] at logical
      cases logical

theorem joins (alike : memo.Alike larger) (consistent : memo.Consistent) {group left right : GroupId}
    (joins : larger.Joins group left right) : memo.Joins group left right := by
  rcases joins with ⟨later, later_mem, children_eq⟩
  rcases (mem_logicalIn alike.consistent).mp later_mem with ⟨stored, rfl, logical⟩
  rcases alike.logical stored logical with ⟨before, before_stored, same⟩
  rcases Expression.unmarked_eq_iff.mp same with ⟨-, group_eq, operator_eq, children_same, -⟩
  rw [operator_eq] at logical
  exact ⟨before, (mem_logicalIn consistent).mpr ⟨before_stored, group_eq.symm, logical⟩,
    children_same.symm.trans children_eq⟩

end Memo.Alike

section Alike

variable {links : List Link} {tables : List GraphTable} {first : Nat} {start memo larger : Memo}
  {label : GroupId → Finset String}

theorem Drawn.unmarked {expression later : Expression} (drawn : Drawn links tables label expression)
    (same : later.unmarked = expression.unmarked) : Drawn links tables label later := by
  rcases Expression.unmarked_eq_iff.mp same with ⟨-, group_eq, operator_eq, children_eq, -⟩
  cases drawn with
  | scan found group_same operator_same no_children label_eq =>
      exact .scan found (group_eq.trans group_same) (operator_eq.trans operator_same)
        (children_eq.trans no_children) label_eq
  | join inputs_eq operator_same label_eq disjoint touch =>
      rw [← group_eq] at label_eq
      exact .join (children_eq.trans inputs_eq) (operator_eq.trans operator_same) label_eq disjoint touch

/-- A chart stays right if no join is added, and the stem is only explored once it is turned. -/
theorem Chart.alike (chart : Chart links tables first start label memo) (consistent : memo.Consistent)
    (alike : memo.Alike larger)
    (turned : ∀ {stem left right}, start.Joins stem left right → larger.Reached stem .explore →
      memo.Reached stem .explore ∨ ∃ group, memo.Joins group right left) :
    Chart links tables first start label larger where
  extends_ := chart.extends_.trans alike.extends_
  drawn := by
    intro later stored logical
    rcases alike.logical stored logical with ⟨before, before_stored, same⟩
    rw [(Expression.unmarked_eq_iff.mp same).2.2.1] at logical
    exact (chart.drawn before_stored logical).unmarked same
  fenced := by
    intro stem group from_ stem_lt unexplored new group_lt
    rw [alike.size_eq] at group_lt
    exact chart.fenced from_ stem_lt (fun explored => unexplored (alike.extends_.reached explored)) new
      group_lt
  plain := by
    intro stem later from_ after later_lt unexplored left right joins
    exact chart.plain from_ after later_lt
      (fun explored => unexplored (alike.extends_.reached explored)) (alike.joins consistent joins)
  mirrored := fun stem_joins joins => chart.mirrored stem_joins (alike.joins consistent joins)
  turned := by
    intro stem left right stem_joins explored
    have known : ∃ group, memo.Joins group right left := by
      rcases turned stem_joins explored with before | known
      · exact chart.turned stem_joins before
      · exact known
    rcases known with ⟨group, joins⟩
    exact ⟨group, joins.mono alike.extends_ consistent alike.consistent⟩

end Alike

/-! ## Transformations -/

section Transformations

variable {links : List Link} {tables : List GraphTable} {first : Nat} {start memo larger : Memo}
  {label stemLabel wider : GroupId → Finset String} {expression : Expression} {rule : RuleId}
  {catalog : Catalog}

omit links tables first start larger label stemLabel wider in
/-- Physical expressions are not transformed. -/
theorem Rules.isLogical_of_result (consistent : memo.Consistent) (closed : memo.Closed)
    (stored : memo.expression? expression.id = some expression) {held : Rule}
    (pair_mem : (rule, held) ∈ numberedTransformations) {results : List RuleResult}
    (apply_eq : held.apply expression memo catalog = .ok (.results results)) {result : RuleResult}
    (result_mem : result ∈ results) : expression.operator.isLogical = true := by
  cases operator_eq : expression.operator with
  | logical operator => rfl
  | physical operator =>
      have join_eq : expression.join? = none := by
        rw [Expression.join?, operator_eq]
      simp only [Rules.numberedTransformations_eq, List.mem_cons, List.not_mem_nil, or_false,
        Prod.mk.injEq] at pair_mem
      rcases pair_mem with ⟨-, rfl⟩ | ⟨-, rfl⟩ | ⟨-, rfl⟩ | ⟨-, rfl⟩
      · cases apply_eq
        simp [Rules.commuteJoin, join_eq] at result_mem
      · simp only [Rules.joinAssociativity, Rules.associateJoin_eq consistent closed stored] at apply_eq
        cases apply_eq
        simp [Rules.associations, join_eq] at result_mem
      · simp only [Rules.predicatePushdown, Rules.pushPredicate_eq consistent closed stored] at apply_eq
        cases apply_eq
        simp [Rules.filteredJoins, operator_eq] at result_mem
      · simp only [Rules.projectionPushdown, Rules.pushProjection_eq consistent closed stored] at apply_eq
        cases apply_eq
        simp [Rules.projectedScans, operator_eq] at result_mem

/-- What a transformation may give for a join of labelled groups. -/
inductive Derived (links : List Link) (label : GroupId → Finset String) (memo : Memo)
    (expression : Expression) : RuleResult → Prop
  | turned {left right : Nat} (children_eq : expression.children = [left, right]) :
      Derived links label memo expression
        (.substitution (joinAcross links (label right) (label left)) [right, left])
  | reassociated {outer last stay moved : Nat} (children_eq : expression.children = [outer, last])
      (parts : memo.Joins outer stay moved ∨ memo.Joins outer moved stay)
      (touch : Touch links (label moved) (label last)) :
      Derived links label memo expression (reassociation links label stay moved last)

variable (deep : LeftDeep links tables stemLabel first start)
  (chart : Chart links tables first start label memo) (born : Born links start label memo)
  (consistent : memo.Consistent) (closed : memo.Closed)
include deep chart born consistent closed

theorem derived_of_apply (legible : Scalar.Legible (links.map Link.equality))
    (stored : memo.expression? expression.id = some expression)
    (logical : expression.operator.isLogical = true) {held : Rule}
    (pair_mem : (rule, held) ∈ numberedTransformations) {results : List RuleResult}
    (apply_eq : held.apply expression memo catalog = .ok (.results results)) {result : RuleResult}
    (result_mem : result ∈ results) : Derived links label memo expression result := by
  have drawn := chart.drawn stored logical
  simp only [Rules.numberedTransformations_eq, List.mem_cons, List.not_mem_nil, or_false,
    Prod.mk.injEq] at pair_mem
  rcases pair_mem with ⟨-, rfl⟩ | ⟨-, rfl⟩ | ⟨-, rfl⟩ | ⟨-, rfl⟩
  · cases apply_eq
    rcases drawn.mem_commuteJoin.mp result_mem with ⟨left, right, children_eq, rfl⟩
    exact .turned children_eq
  · simp only [Rules.joinAssociativity, Rules.associateJoin_eq consistent closed stored] at apply_eq
    cases apply_eq
    rcases (chart.mem_associations deep born consistent closed legible stored drawn).mp result_mem with
      ⟨outer, last, stay, moved, children_eq, parts, touch, rfl⟩
    exact .reassociated children_eq parts touch
  · simp only [Rules.predicatePushdown, Rules.pushPredicate_eq consistent closed stored,
      drawn.filteredJoins_eq] at apply_eq
    cases apply_eq
    cases result_mem
  · simp only [Rules.projectionPushdown, Rules.pushProjection_eq consistent closed stored,
      drawn.projectedScans_eq] at apply_eq
    cases apply_eq
    cases result_mem

omit born in
/-- What may be given for an expression is stored in its group. -/
theorem Derived.inserts {result : RuleResult} (derived : Derived links label memo expression result)
    (stored : memo.expression? expression.id = some expression)
    (logical : expression.operator.isLogical = true)
    (site : ∀ {left right}, expression.children = [left, right] →
      Site tables start label memo expression.group)
    (before : Stored links tables first start rule label memo larger) :
    ∃ next, RuleJob.Inserts rule expression.group result larger next ∧
      Stored links tables first start rule label memo next := by
  rcases before with ⟨wider, charted, born⟩
  have expression_mem : expression ∈ memo.logicalIn expression.group :=
    (Memo.mem_logicalIn consistent).mpr ⟨stored, rfl, logical⟩
  have size_le := charted.grown.extends_.size_le
  have old {group : Nat} (group_lt : group < memo.groups.size) : group < larger.groups.size :=
    Nat.lt_of_lt_of_le group_lt size_le
  -- results stored later do not touch what has been charted before
  have continues {next : Memo} (after : Stored links tables first start rule wider larger next) :
      Stored links tables first start rule label memo next := by
    rcases after with ⟨widest, later, later_born⟩
    exact ⟨widest, charted.trans later, later_born⟩
  cases derived with
  | @turned left right children_eq =>
      have joins : memo.Joins expression.group left right := ⟨expression, expression_mem, children_eq⟩
      rcases joins.lt consistent closed with ⟨group_lt, left_lt, right_lt⟩
      rcases chart.of_joins consistent joins with ⟨-, label_eq, disjoint, touch⟩
      have site_now := charted.site chart (site children_eq)
      rw [← charted.agrees left_lt, ← charted.agrees right_lt] at disjoint touch label_eq ⊢
      rw [← charted.agrees group_lt, Finset.union_comm] at label_eq
      rcases inserts_turned rule deep charted.chart born charted.grown.consistent
        charted.grown.closed site_now (old right_lt) (old left_lt) label_eq disjoint.symm touch.symm with
        ⟨next, inserted, after⟩
      exact ⟨next, inserted, continues after⟩
  | @reassociated outer last stay moved children_eq parts touch =>
      have joins : memo.Joins expression.group outer last := ⟨expression, expression_mem, children_eq⟩
      rcases joins.lt consistent closed with ⟨group_lt, -, last_lt⟩
      rcases chart.of_joins consistent joins with ⟨-, label_eq, disjoint, -⟩
      rcases chart.parts consistent closed parts with
        ⟨outer_eq, apart, inner_touch, stay_lt, moved_lt⟩
      have site_now := charted.site chart (site children_eq)
      rw [outer_eq, Finset.disjoint_union_left] at disjoint
      rw [outer_eq, Finset.union_assoc] at label_eq
      have stay_disjoint : Disjoint (label stay) (label moved ∪ label last) :=
        Finset.disjoint_union_right.mpr ⟨apart, disjoint.1⟩
      have moved_disjoint := disjoint.2
      rw [reassociation]
      rw [← charted.agrees group_lt] at label_eq
      rw [← charted.agrees stay_lt, ← charted.agrees moved_lt] at inner_touch
      rw [← charted.agrees moved_lt, ← charted.agrees last_lt] at moved_disjoint touch stay_disjoint
      rw [← charted.agrees stay_lt] at stay_disjoint
      rw [← charted.agrees stay_lt, ← charted.agrees moved_lt, ← charted.agrees last_lt] at label_eq ⊢
      rcases inserts_reassociated rule deep charted.chart born charted.grown.consistent
        charted.grown.closed site_now (old stay_lt) (old moved_lt) (old last_lt) label_eq stay_disjoint
        moved_disjoint inner_touch touch with ⟨next, inserted, after⟩
      exact ⟨next, inserted, continues after⟩

end Transformations

end Cascades
