import Cascades.Proofs.Rules.Balance

/-!
# Memos that descend from a ground

What the standard rules give uses nothing but the operators that a memo was started with and the
conjuncts of their conditions, and every expression reads groups that are lower than its own. A group
with more tables below it is higher. A join has more tables than each of its inputs; all other
operators with an input are those of the start, and there the order of the groups breaks the tie, with
the groups of scans as the lowest.
-/

namespace Cascades

open Rules (numberedTransformations numberedImplementations)

/-! ## Derived operators -/

namespace LogicalOperator

/-- The conjuncts of the condition of a join, or of the predicate of a filter. -/
def conjuncts : LogicalOperator → List Scalar
  | .join _ condition => condition.conjuncts
  | .filter predicate => predicate.conjuncts
  | _ => []

/--
What the rules make of given operators: joins on conjuncts of the given joins and filters, scans of
the columns that a given projection uses, and otherwise the given operators themselves.
-/
def DerivesFrom (given : List LogicalOperator) : LogicalOperator → Prop
  | .join _ condition => condition.conjuncts ⊆ given.flatMap conjuncts
  | .scan table columns predicate => ∃ own, .scan table own predicate ∈ given ∧
      (columns = own ∨ ∃ scalars aliases, .project scalars aliases ∈ given ∧
        columns = Rules.neededColumns scalars)
  | operator => operator ∈ given

theorem derivesFrom_of_mem {given : List LogicalOperator} {operator : LogicalOperator}
    (operator_mem : operator ∈ given) : operator.DerivesFrom given := by
  cases operator with
  | join type condition =>
      exact fun conjunct conjunct_mem => List.mem_flatMap.mpr ⟨_, operator_mem, conjunct_mem⟩
  | scan table columns predicate => exact ⟨columns, operator_mem, .inl rfl⟩
  | filter predicate => exact operator_mem
  | project scalars aliases => exact operator_mem
  | aggregate keys aggregates => exact operator_mem
  | sort order => exact operator_mem
  | limit offset count => exact operator_mem

end LogicalOperator

/-- The logical operator that an operator is, or that it runs. -/
def Operator.form : Operator → LogicalOperator
  | .logical operator => operator
  | .physical operator => operator.form

namespace Scalar

theorem conjuncts_ne_nil {condition : Scalar} (canonical : condition.canonical = condition) :
    condition.conjuncts ≠ [] := by
  have atoms : ∀ conjunct ∈ ordered condition.conjuncts, conjunct.conjuncts = [conjunct] :=
    fun conjunct conjunct_mem => conjuncts_of_mem condition (mem_of_mem_ordered conjunct_mem)
  rw [← canonical, Scalar.canonical, canonicalConjunction, ← ordered, conjuncts_conjunction atoms]
  split
  · exact List.cons_ne_nil _ _
  · assumption

variable {scalars : List Scalar} (atoms : ∀ scalar ∈ scalars, scalar.conjuncts = [scalar])
include atoms

/-- The canonical conjunction of some conjuncts has no others. -/
theorem conjuncts_canonicalConjunction_subset (some : scalars ≠ []) :
    (canonicalConjunction scalars).conjuncts ⊆ scalars := by
  rw [conjuncts_canonicalConjunction atoms, if_neg some]
  exact fun scalar => mem_of_mem_ordered

end Scalar

theorem LogicalOperator.derivesFrom_join {given : List LogicalOperator} {scalars : List Scalar}
    (atoms : ∀ scalar ∈ scalars, scalar.conjuncts = [scalar]) (some : scalars ≠ [])
    (subset : scalars ⊆ given.flatMap conjuncts) (type : JoinType) :
    (LogicalOperator.join type (.canonicalConjunction scalars)).DerivesFrom given :=
  List.Subset.trans (Scalar.conjuncts_canonicalConjunction_subset atoms some) subset

theorem Operator.canonical_joinOf {scalars : List Scalar}
    (atoms : ∀ scalar ∈ scalars, scalar.conjuncts = [scalar]) (type : JoinType) :
    (Operator.logical (.join type (.canonicalConjunction scalars))).canonical =
      .logical (.join type (.canonicalConjunction scalars)) := by
  rw [Operator.canonical, LogicalOperator.canonical, Scalar.canonical_canonicalConjunction atoms]

theorem Operator.condition_canonical {type : JoinType} {condition : Scalar}
    (canonical : (Operator.logical (.join type condition)).canonical = .logical (.join type condition)) :
    condition.canonical = condition := by
  rw [Operator.canonical, LogicalOperator.canonical] at canonical
  exact (LogicalOperator.join.inj (Operator.logical.inj canonical)).2

namespace Rules

/-- Only a condition without other conjuncts than truth loses all of them. -/
theorem conjuncts_mergeConditions_subset {condition : Scalar}
    (canonical : condition.canonical = condition) (predicate : Scalar) :
    (mergeConditions condition predicate).conjuncts ⊆ condition.conjuncts ++ predicate.conjuncts := by
  have atoms : ∀ conjunct ∈ condition.conjuncts.filter (fun conjunct => !conjunct.same .truth) ++
      predicate.conjuncts, conjunct.conjuncts = [conjunct] := by
    intro conjunct conjunct_mem
    rcases List.mem_append.mp conjunct_mem with here | there
    · exact Scalar.conjuncts_of_mem condition (List.mem_filter.mp here).1
    · exact Scalar.conjuncts_of_mem predicate there
  rw [mergeConditions]
  by_cases none : condition.conjuncts.filter (fun conjunct => !conjunct.same .truth) ++
      predicate.conjuncts = []
  · rcases List.exists_mem_of_ne_nil _ (Scalar.conjuncts_ne_nil canonical) with ⟨first, first_mem⟩
    have first_true : first.same .truth = true := by
      have kept := (List.filter_eq_nil_iff.mp (List.append_eq_nil_iff.mp none).1) first first_mem
      simpa using kept
    rw [none]
    intro conjunct conjunct_mem
    have conjunct_eq : conjunct = .truth := List.mem_singleton.mp conjunct_mem
    rw [conjunct_eq, ← Scalar.rigid_truth first first_true]
    exact List.mem_append_left _ first_mem
  · refine List.Subset.trans (Scalar.conjuncts_canonicalConjunction_subset atoms none) ?_
    exact List.append_subset.mpr ⟨fun conjunct conjunct_mem =>
      List.mem_append_left _ (List.mem_filter.mp conjunct_mem).1, List.subset_append_right _ _⟩

end Rules

/-! ## Places in a memo -/

/--
What a search starts from: the operators of its memo, a bound on the tables below a group, and ranks
for groups that have equally many tables below them.
-/
structure Ground where
  operators : List LogicalOperator
  tables : Nat
  rank : GroupId → Nat
  step : Nat
  rank_lt : ∀ group, rank group < step

variable {ground : Ground} {weight wider : GroupId → Multiset TableRef} {memo larger : Memo}
  {group : GroupId} {operator : Operator} {children : List GroupId}

namespace Ground

/-- Groups with more tables are higher, and of those with equally many the ones of a higher rank. -/
def grade (ground : Ground) (weight : GroupId → Multiset TableRef) (group : GroupId) : Nat :=
  ground.step * (weight group).card + ground.rank group

theorem grade_lt (ground : Ground) {tables : Nat} (fewer : (weight group).card < tables) :
    ground.grade weight group < ground.step * tables :=
  calc ground.step * (weight group).card + ground.rank group
      < ground.step * (weight group).card + ground.step :=
        Nat.add_lt_add_left (ground.rank_lt group) _
    _ = ground.step * ((weight group).card + 1) := (Nat.mul_succ _ _).symm
    _ ≤ ground.step * tables := Nat.mul_le_mul_left _ fewer

theorem grade_lt_grade (ground : Ground) {other : GroupId}
    (fewer : (weight group).card < (weight other).card) :
    ground.grade weight group < ground.grade weight other :=
  Nat.lt_of_lt_of_le (ground.grade_lt fewer) (Nat.le_add_right _ _)

theorem grade_congr (agrees : wider group = weight group) :
    ground.grade wider group = ground.grade weight group := by
  rw [grade, grade, agrees]

/-- An operator that derives from the ground, for a group that is higher than its inputs. -/
structure Places (ground : Ground) (weight : GroupId → Multiset TableRef) (group : GroupId)
    (operator : Operator) (children : List GroupId) : Prop where
  canonical : operator.canonical = operator
  derives : operator.form.DerivesFrom ground.operators
  lower : ∀ child ∈ children, ground.grade weight child < ground.grade weight group
  leaf : children = [] → ground.rank group = 0

theorem Places.congr (places : ground.Places weight group operator children)
    (group_eq : wider group = weight group)
    (children_eq : ∀ child ∈ children, wider child = weight child) :
    ground.Places wider group operator children where
  canonical := places.canonical
  derives := places.derives
  lower := by
    intro child child_mem
    rw [grade_congr group_eq, grade_congr (children_eq child child_mem)]
    exact places.lower child child_mem
  leaf := places.leaf

/-- A new operator over given groups, whose group is below a given one and above its inputs. -/
structure Founds (ground : Ground) (weight : GroupId → Multiset TableRef) (group : GroupId)
    (operator : Operator) (children : List GroupId) (tables : Nat) : Prop where
  canonical : operator.canonical = operator
  derives : operator.form.DerivesFrom ground.operators
  arity : children.length = operator.arity
  tables_eq : (operator.scans + (children.map weight).sum).card = tables
  scanning : 0 < tables
  lower : ∀ child ∈ children, ground.grade weight child < ground.step * tables
  below : tables < (weight group).card ∨
    (children = [] ∧ ground.step * tables < ground.grade weight group)

theorem Founds.tables_le {tables : Nat} (founds : ground.Founds weight group operator children tables) :
    tables ≤ (weight group).card := by
  rcases founds.below with fewer | ⟨-, lower⟩
  · exact Nat.le_of_lt fewer
  · have higher : ground.grade weight group < ground.step * ((weight group).card + 1) :=
      ground.grade_lt (Nat.lt_succ_self (weight group).card)
    exact Nat.le_of_lt_succ (Nat.lt_of_mul_lt_mul_left (Nat.lt_trans lower higher))

theorem Founds.congr {tables : Nat} (founds : ground.Founds weight group operator children tables)
    (group_eq : wider group = weight group)
    (children_eq : ∀ child ∈ children, wider child = weight child) :
    ground.Founds wider group operator children tables where
  canonical := founds.canonical
  derives := founds.derives
  arity := founds.arity
  tables_eq := by rw [List.map_congr_left children_eq, founds.tables_eq]
  scanning := founds.scanning
  lower := by
    intro child child_mem
    rw [grade_congr (children_eq child child_mem)]
    exact founds.lower child child_mem
  below := by
    rw [group_eq, grade_congr group_eq]
    exact founds.below

end Ground

namespace Memo

/--
A memo whose groups are ordered by grade, so that every expression reads lower groups, with no
operators but those that derive from the ground.
-/
structure Descends (ground : Ground) (weight : GroupId → Multiset TableRef) (memo : Memo) : Prop where
  weighed : Weighed weight memo
  scanning : ∀ {group}, group < memo.groups.size →
    0 < (weight group).card ∧ (weight group).card ≤ ground.tables
  placed : ∀ {id expression}, memo.expression? id = some expression →
    ground.Places weight expression.group expression.operator expression.children
  unranked : ∀ {group}, memo.groups.size ≤ group → ground.rank group = 0

namespace Descends

variable (descends : memo.Descends ground weight)
include descends

/-- Marks and flags do not change the order of the groups. -/
theorem same (weighed : Weighed weight larger) (size_eq : larger.groups.size = memo.groups.size)
    (known : ∀ {id later}, larger.expression? id = some later →
      ∃ before, memo.expression? id = some before ∧ later.unmarked = before.unmarked) :
    larger.Descends ground weight where
  weighed := weighed
  scanning := fun group_lt => descends.scanning (size_eq ▸ group_lt)
  placed := by
    intro id later stored
    rcases known stored with ⟨before, before_stored, same⟩
    rcases Expression.unmarked_eq_iff.mp same with ⟨-, group_eq, operator_eq, children_eq, -⟩
    rw [group_eq, operator_eq, children_eq]
    exact descends.placed before_stored
  unranked := fun size_le => descends.unranked (size_eq ▸ size_le)

theorem marked {id : ExprId} {expression : Expression}
    (stored : memo.expression? id = some expression) (rule : RuleId) :
    (memo.marked expression rule).Descends ground weight := by
  refine descends.same (descends.weighed.marked stored rule) rfl ?_
  intro other later later_stored
  rcases Memo.expression?_of_marked descends.weighed.consistent stored later_stored with
    ⟨before, before_stored, same, -⟩
  exact ⟨before, before_stored, by rw [same]; rfl⟩

theorem flagged {held : Group} (found : memo.group? group = some held) (goal : Goal) :
    (memo.flagged group held goal).Descends ground weight :=
  descends.same (descends.weighed.flagged found goal) (by simp [Memo.flagged])
    fun stored => ⟨_, stored, rfl⟩

theorem congr (weighed : Weighed wider memo)
    (agrees : ∀ {group : Nat}, group < memo.groups.size → wider group = weight group) :
    memo.Descends ground wider where
  weighed := weighed
  scanning := by
    intro group group_lt
    rw [agrees group_lt]
    exact descends.scanning group_lt
  placed := fun stored => (descends.placed stored).congr
    (agrees (descends.weighed.consistent.group_lt stored))
    fun child child_mem => agrees (descends.weighed.closed stored child child_mem)
  unranked := descends.unranked

theorem addTo (origin : Option RuleId) (group_lt : group < memo.groups.size)
    (exist : ∀ child ∈ children, child < memo.groups.size)
    (balanced : Balanced weight group operator children)
    (places : ground.Places weight group operator children) :
    ∃ next insertion, memo.addTo group operator children origin = .ok (next, insertion) ∧
      Reweighed weight memo weight next ∧ next.Descends ground weight := by
  rcases descends.weighed.addTo origin group_lt exist balanced with
    ⟨next, insertion, added, weighed, size_eq⟩
  refine ⟨next, insertion, added, ⟨size_eq.ge, fun _ => rfl, weighed⟩, ?_⟩
  rcases Memo.addTo_cases added with ⟨rfl, -⟩ | ⟨rfl, -, -⟩
  · exact descends
  · refine ⟨weighed, fun lt => descends.scanning (size_eq ▸ lt), ?_,
      fun size_le => descends.unranked (size_eq ▸ size_le)⟩
    intro id expression stored
    rw [Memo.expression?_push] at stored
    split at stored
    · cases stored
      rw [places.canonical]
      exact places
    · exact descends.placed stored

/-- A group that is opened for a shape is as low as its tables allow. -/
theorem add (origin : Option RuleId) (exist : ∀ child ∈ children, child < memo.groups.size)
    {tables : Nat} (founds : ground.Founds weight group operator children tables)
    (bounded : tables ≤ ground.tables) :
    ∃ next made id wider, memo.add operator children origin = (next, made, id) ∧
      Reweighed weight memo wider next ∧ next.Descends ground wider ∧ made < next.groups.size ∧
        wider made = operator.scans + (children.map weight).sum ∧
          (children = [] → ground.rank made = 0) := by
  rcases Reweighed.add descends.weighed origin exist founds.arity with
    ⟨next, made, id, wider, added, reweighed, made_lt, made_eq⟩
  refine ⟨next, made, id, wider, added, reweighed, ?_⟩
  rw [Memo.add, founds.canonical] at added
  cases known : memo.find? operator children with
  | some expression =>
      rw [known] at added
      cases added
      have stored := descends.weighed.consistent.find?_id known
      rcases Memo.expression?_of_find? known with ⟨-, children_eq, -⟩
      exact ⟨descends.congr reweighed.weighed reweighed.agrees, made_lt, made_eq,
        fun none => (descends.placed stored).leaf (children_eq.trans none)⟩
  | none =>
      rw [known] at added
      cases added
      have unranked := descends.unranked (Nat.le_refl memo.groups.size)
      have grade_eq : ground.grade wider memo.groups.size = ground.step * tables := by
        rw [Ground.grade, made_eq, founds.tables_eq, unranked, Nat.add_zero]
      refine ⟨⟨reweighed.weighed, ?_, ?_, ?_⟩, made_lt, made_eq, fun _ => unranked⟩
      · intro other other_lt
        rcases Nat.lt_succ_iff_lt_or_eq.mp (by simpa using other_lt) with old | rfl
        · rw [reweighed.agrees old]
          exact descends.scanning old
        · rw [made_eq, founds.tables_eq]
          exact ⟨founds.scanning, bounded⟩
      · intro other expression stored
        rw [Memo.expression?_push] at stored
        split at stored
        · cases stored
          refine ⟨founds.canonical, founds.derives, ?_, fun _ => unranked⟩
          intro child child_mem
          rw [grade_eq, Ground.grade_congr (reweighed.agrees (exist child child_mem))]
          exact founds.lower child child_mem
        · have before : memo.expression? other = some expression := stored
          exact (descends.placed before).congr
            (reweighed.agrees (descends.weighed.consistent.group_lt before))
            fun child child_mem => reweighed.agrees (descends.weighed.closed before child child_mem)
      · intro other size_le
        exact descends.unranked (Nat.le_trans reweighed.size_le size_le)

end Descends

end Memo

/-! ## Storing results -/

namespace Subplan

theorem allGrounded_groups :
    AllGrounded memo (children.map .group) ↔ ∀ child ∈ children, child < memo.groups.size := by
  induction children with
  | nil => simp [AllGrounded]
  | cons child rest ih => rw [List.map_cons, AllGrounded, ih, Grounded, List.forall_mem_cons]

theorem AllGrounded.of_mem {plans : List Subplan} (grounded : AllGrounded memo plans) {plan : Subplan}
    (plan_mem : plan ∈ plans) : plan.Grounded memo := by
  induction plans with
  | nil => cases plan_mem
  | cons first rest ih =>
      rcases List.mem_cons.mp plan_mem with rfl | later
      · exact grounded.1
      · exact ih grounded.2 later

theorem tablesOf_groups : tablesOf weight (children.map .group) = (children.map weight).sum := by
  induction children with
  | nil => rfl
  | cons child rest ih => rw [List.map_cons, tablesOf, ih, tables, List.map_cons, List.sum_cons]

/-- A group below a given one, or a new operator whose group will be below it. -/
def Below (ground : Ground) (weight : GroupId → Multiset TableRef) (group : GroupId) : Subplan → Prop
  | .group id => ground.grade weight id < ground.grade weight group
  | .fresh operator plans => ∃ children tables, plans = children.map .group ∧
      ground.Founds weight group operator children tables

theorem Below.congr {plan : Subplan} (below : plan.Below ground weight group)
    (grounded : plan.Grounded memo) (group_lt : group < memo.groups.size)
    (agrees : ∀ {group : Nat}, group < memo.groups.size → wider group = weight group) :
    plan.Below ground wider group := by
  cases plan with
  | group id =>
      rw [Below, Ground.grade_congr (agrees group_lt), Ground.grade_congr (agrees grounded)]
      exact below
  | fresh operator plans =>
      rcases below with ⟨children, tables, rfl, founds⟩
      have exist := allGrounded_groups.mp grounded
      exact ⟨children, tables, rfl, founds.congr (agrees group_lt)
        fun child child_mem => agrees (exist child child_mem)⟩

end Subplan

namespace RuleJob

variable {rule : RuleId}

theorem storeAll_groups (exist : ∀ child ∈ children, child < memo.groups.size) :
    storeAll rule memo (children.map .group) = (memo, .ok children) := by
  induction children with
  | nil => rw [List.map_nil, storeAll]
  | cons child rest ih =>
      rcases List.forall_mem_cons.mp exist with ⟨first, others⟩
      rw [List.map_cons, storeAll, store, checkGroups_eq_ok (by simpa using first)]
      simp only [Except.map, ih others]

/-- A sub-plan below a group is stored in a group below it. -/
theorem store_descends (descends : memo.Descends ground weight) (rule : RuleId)
    (group_lt : group < memo.groups.size) {plan : Subplan} (grounded : plan.Grounded memo)
    (below : plan.Below ground weight group) :
    ∃ wider larger made, store rule memo plan = (larger, .ok made) ∧
      Reweighed weight memo wider larger ∧ larger.Descends ground wider ∧
        made < larger.groups.size ∧ wider made = plan.tables weight ∧
          ground.grade wider made < ground.grade wider group := by
  cases plan with
  | group id =>
      have exists_ : id < memo.groups.size := grounded
      refine ⟨weight, memo, id, ?_, .refl descends.weighed, descends, exists_, rfl, below⟩
      rw [store, checkGroups_eq_ok (by simpa using exists_)]
      rfl
  | fresh operator plans =>
      rcases below with ⟨children, tables, rfl, founds⟩
      have exist := Subplan.allGrounded_groups.mp grounded
      rcases descends.add (some rule) exist founds
        (Nat.le_trans founds.tables_le (descends.scanning group_lt).2) with
        ⟨next, made, id, wider, added, reweighed, next_descends, made_lt, made_eq, leaf⟩
      refine ⟨wider, next, made, ?_, reweighed, next_descends, made_lt, ?_, ?_⟩
      · rw [store, storeAll_groups exist]
        simp only [added]
      · rw [made_eq, Subplan.tables, Subplan.tablesOf_groups]
      · rcases founds.below with fewer | ⟨none, lower⟩
        · refine ground.grade_lt_grade ?_
          rw [made_eq, founds.tables_eq, reweighed.agrees group_lt]
          exact fewer
        · rw [Ground.grade_congr (reweighed.agrees group_lt), Ground.grade, made_eq,
            founds.tables_eq, leaf none, Nat.add_zero]
          exact lower

theorem storeAll_descends {plans : List Subplan} (descends : memo.Descends ground weight)
    (rule : RuleId) (group_lt : group < memo.groups.size) (grounded : Subplan.AllGrounded memo plans)
    (below : ∀ plan ∈ plans, plan.Below ground weight group) :
    ∃ wider larger made, storeAll rule memo plans = (larger, .ok made) ∧
      Reweighed weight memo wider larger ∧ larger.Descends ground wider ∧
        (∀ child ∈ made, child < larger.groups.size) ∧ made.length = plans.length ∧
          (made.map wider).sum = Subplan.tablesOf weight plans ∧
            ∀ child ∈ made, ground.grade wider child < ground.grade wider group := by
  induction plans generalizing memo weight with
  | nil =>
      exact ⟨weight, memo, [], by rw [storeAll], .refl descends.weighed, descends, by simp, rfl, rfl,
        by simp⟩
  | cons plan rest ih =>
      rcases grounded with ⟨first, others⟩
      rcases List.forall_mem_cons.mp below with ⟨first_below, others_below⟩
      rcases store_descends descends rule group_lt first first_below with
        ⟨wider, middle, made, stored_eq, early, middle_descends, made_lt, made_eq, lower⟩
      rcases ih middle_descends (Nat.lt_of_lt_of_le group_lt early.size_le)
        (Subplan.AllGrounded.mono early.size_le rest others)
        (fun other other_mem => (others_below other other_mem).congr
          (Subplan.AllGrounded.of_mem others other_mem) group_lt early.agrees) with
        ⟨widest, larger, groups, rest_eq, late, larger_descends, exist, length_eq, sum_eq, lowers⟩
      refine ⟨widest, larger, made :: groups, ?_, early.trans late, larger_descends, ?_, ?_, ?_, ?_⟩
      · rw [storeAll, stored_eq]
        simp only [rest_eq]
      · exact List.forall_mem_cons.mpr ⟨Nat.lt_of_lt_of_le made_lt late.size_le, exist⟩
      · rw [List.length_cons, List.length_cons, length_eq]
      · rw [List.map_cons, List.sum_cons, late.agrees made_lt, made_eq, sum_eq,
          Subplan.tablesOf_congr early.agrees rest others, Subplan.tablesOf]
      · refine List.forall_mem_cons.mpr ⟨?_, lowers⟩
        rw [Ground.grade_congr (late.agrees made_lt),
          Ground.grade_congr (late.agrees (Nat.lt_of_lt_of_le group_lt early.size_le))]
        exact lower

end RuleJob

/-- A result that keeps the order of the groups, and is made of operators that derive from the ground. -/
def RuleResult.Descends (ground : Ground) (weight : GroupId → Multiset TableRef) (group : GroupId) :
    RuleResult → Prop
  | .substitution operator children => ground.Places weight group operator children
  | .nested operator plans => operator.canonical = operator ∧
      operator.form.DerivesFrom ground.operators ∧ plans ≠ [] ∧
        ∀ plan ∈ plans, plan.Below ground weight group

theorem RuleResult.Descends.congr {result : RuleResult} (lower : result.Descends ground weight group)
    (grounded : result.Grounded memo) (group_lt : group < memo.groups.size)
    (agrees : ∀ {group : Nat}, group < memo.groups.size → wider group = weight group) :
    result.Descends ground wider group := by
  cases result with
  | substitution operator children =>
      exact Ground.Places.congr lower (agrees group_lt)
        fun child child_mem => agrees (grounded child child_mem)
  | nested operator plans =>
      rcases lower with ⟨canonical, derives, some, below⟩
      exact ⟨canonical, derives, some, fun plan plan_mem => (below plan plan_mem).congr
        (Subplan.AllGrounded.of_mem grounded plan_mem) group_lt agrees⟩

namespace Memo.Descends

variable (descends : memo.Descends ground weight)
include descends

theorem inserts {result : RuleResult} (rule : RuleId) (group_lt : group < memo.groups.size)
    (grounded : result.Grounded memo) (balances : result.Balances weight group)
    (lower : result.Descends ground weight group) :
    ∃ next wider, RuleJob.Inserts rule group result memo next ∧ Reweighed weight memo wider next ∧
      next.Descends ground wider := by
  cases result with
  | substitution operator children =>
      rcases descends.addTo (some rule) group_lt grounded balances lower with
        ⟨next, insertion, added, reweighed, next_descends⟩
      exact ⟨next, weight, .substitution grounded added, reweighed, next_descends⟩
  | nested operator plans =>
      rcases balances with ⟨arity, -, tables_eq⟩
      rcases lower with ⟨canonical, derives, some_plan, below⟩
      rcases RuleJob.storeAll_descends descends rule group_lt grounded below with
        ⟨wider, middle, made, stored_eq, early, middle_descends, exist, length_eq, sum_eq, lowers⟩
      have balanced : Balanced wider group operator made :=
        ⟨length_eq.trans arity, by rw [early.agrees group_lt, tables_eq, sum_eq]⟩
      have places : ground.Places wider group operator made := by
        refine ⟨canonical, derives, lowers, ?_⟩
        intro none
        rw [none] at length_eq
        exact (some_plan (List.length_eq_zero_iff.mp length_eq.symm)).elim
      rcases middle_descends.addTo (some rule) (Nat.lt_of_lt_of_le group_lt early.size_le) exist
        balanced places with ⟨next, insertion, added, late, next_descends⟩
      refine ⟨next, wider, ⟨middle, operator, made, insertion, ?_, added⟩, early.trans late,
        next_descends⟩
      rw [RuleJob.prepare, stored_eq]
      rfl

theorem insertAll (rule : RuleId) (group_lt : group < memo.groups.size) {results : List RuleResult}
    (fitting : ∀ result ∈ results, result.Grounded memo ∧ result.Balances weight group ∧
      result.Descends ground weight group) (added : Nat) :
    ∃ larger total wider, RuleJob.insertAll rule group memo added results = .ok (larger, total, .ok ()) ∧
      Reweighed weight memo wider larger ∧ larger.Descends ground wider := by
  have keeps {stage : Memo} {result : RuleResult} (result_mem : result ∈ results)
      (kept : ∃ wider, Reweighed weight memo wider stage ∧ stage.Descends ground wider) :
      ∃ next, RuleJob.Inserts rule group result stage next ∧
        ∃ wider, Reweighed weight memo wider next ∧ next.Descends ground wider := by
    rcases kept with ⟨wider, reweighed, stage_descends⟩
    rcases fitting result result_mem with ⟨grounded, balances, lower⟩
    rcases stage_descends.inserts rule (Nat.lt_of_lt_of_le group_lt reweighed.size_le)
      (grounded.mono reweighed.size_le) (balances.congr grounded group_lt reweighed.agrees)
      (lower.congr grounded group_lt reweighed.agrees) with
      ⟨next, widest, inserted, later, next_descends⟩
    exact ⟨next, inserted, widest, reweighed.trans later, next_descends⟩
  rcases RuleJob.insertAll_keeps keeps ⟨weight, .refl descends.weighed, descends⟩ added with
    ⟨larger, total, inserted, wider, reweighed, larger_descends⟩
  exact ⟨larger, total, wider, inserted, reweighed, larger_descends⟩

/-! ## What the standard rules give -/

theorem placed_of_mem {input : Expression} (input_mem : input ∈ memo.logicalIn group) :
    ground.Places weight group input.operator input.children := by
  rcases (Memo.mem_logicalIn descends.weighed.consistent).mp input_mem with ⟨stored, rfl, -⟩
  exact descends.placed stored

/-- A join of two groups with fewer tables than a given one is founded below it. -/
theorem founds_join {left right : GroupId} {scalars : List Scalar}
    (left_lt : left < memo.groups.size) (right_lt : right < memo.groups.size)
    (fewer : (weight left + weight right).card < (weight group).card)
    (atoms : ∀ scalar ∈ scalars, scalar.conjuncts = [scalar]) (some : scalars ≠ [])
    (subset : scalars ⊆ ground.operators.flatMap LogicalOperator.conjuncts) :
    ground.Founds weight group (.logical (.join .inner (.canonicalConjunction scalars))) [left, right]
      (weight left + weight right).card := by
  have left_some := (descends.scanning left_lt).1
  have right_some := (descends.scanning right_lt).1
  refine ⟨Operator.canonical_joinOf atoms .inner,
    LogicalOperator.derivesFrom_join atoms some subset .inner, rfl, ?_, ?_, ?_, .inl fewer⟩
  · simp [Operator.scans, Operator.scanned?]
  · rw [Multiset.card_add]
    omega
  · intro child child_mem
    refine ground.grade_lt ?_
    rw [Multiset.card_add]
    rcases List.mem_cons.mp child_mem with rfl | child_mem
    · omega
    · rw [List.mem_singleton.mp child_mem]
      omega

section Results

variable {expression : Expression} {result : RuleResult}
  (stored : memo.expression? expression.id = some expression)
include stored

theorem descends_of_commuteJoin (result_mem : result ∈ Rules.commuteJoin expression) :
    result.Descends ground weight expression.group := by
  rcases Rules.mem_commuteJoin.mp result_mem with ⟨type, condition, left, right, join_eq, -, rfl⟩
  rcases Expression.join?_eq_some.mp join_eq with ⟨operator_eq, children_eq⟩
  have places := descends.placed stored
  rw [operator_eq, children_eq] at places
  refine ⟨places.canonical, places.derives, ?_, fun none => (List.cons_ne_nil _ _ none).elim⟩
  intro child child_mem
  refine places.lower child ?_
  simpa [or_comm] using child_mem

/-- Associativity forms a join of fewer tables, and joins it with an input of an input. -/
theorem descends_of_associations (result_mem : result ∈ Rules.associations memo expression) :
    result.Descends ground weight expression.group := by
  rcases Rules.of_mem_associations result_mem with ⟨outer, first, last, inner, left, right, input,
    join_eq, input_mem, inner_eq, stay, moved, parts, result_mem⟩
  rcases Expression.join?_eq_some.mp join_eq with ⟨operator_eq, children_eq⟩
  rcases Expression.localInnerJoin?_eq_some.mp inner_eq with ⟨input_operator_eq, -, inputs_eq⟩
  rcases Rules.mem_reassociate.mp result_mem with ⟨some_pushed, rfl⟩
  have places := descends.placed stored
  have input_places := descends.placed_of_mem input_mem
  rw [operator_eq, children_eq] at places
  rw [input_operator_eq, inputs_eq] at input_places
  have outer_subset : outer.conjuncts ⊆ ground.operators.flatMap LogicalOperator.conjuncts :=
    places.derives
  have inner_subset : inner.conjuncts ⊆ ground.operators.flatMap LogicalOperator.conjuncts :=
    input_places.derives
  have last_lt := descends.weighed.closed stored last (by simp [children_eq])
  have stay_mem : stay ∈ [left, right] := by rcases parts with ⟨rfl, -⟩ | ⟨rfl, -⟩ <;> simp
  have moved_mem : moved ∈ [left, right] := by rcases parts with ⟨-, rfl⟩ | ⟨-, rfl⟩ <;> simp
  have inputs_lt := Memo.child_lt descends.weighed.consistent descends.weighed.closed input_mem
  rw [inputs_eq] at inputs_lt
  have stay_some := (descends.scanning (inputs_lt stay stay_mem)).1
  have total : weight expression.group = weight stay + (weight moved + weight last) := by
    have first_eq : weight first = weight left + weight right := by
      rw [(descends.weighed.balanced_of_mem input_mem).tables, input_operator_eq, inputs_eq]
      simp [Operator.scans, Operator.scanned?]
    rw [descends.weighed.of_join stored join_eq, first_eq, ← add_assoc]
    rcases parts with ⟨rfl, rfl⟩ | ⟨rfl, rfl⟩
    · rfl
    · rw [add_comm (weight moved)]
  have fewer : (weight moved + weight last).card < (weight expression.group).card := by
    rw [total, Multiset.card_add (weight stay)]
    omega
  have part_atoms (keep : Scalar → Bool) (conjunct : Scalar)
      (conjunct_mem : conjunct ∈ outer.conjuncts.filter keep) : conjunct.conjuncts = [conjunct] :=
    Scalar.conjuncts_of_mem outer (List.mem_filter.mp conjunct_mem).1
  have part_subset (keep : Scalar → Bool) : outer.conjuncts.filter keep ⊆
      ground.operators.flatMap LogicalOperator.conjuncts :=
    fun conjunct conjunct_mem => outer_subset (List.mem_filter.mp conjunct_mem).1
  have kept_atoms : ∀ conjunct ∈ inner.conjuncts ++ outer.conjuncts.filter (not ∘
      Rules.connects (memo.tablesBelow moved) (memo.tablesBelow last)),
      conjunct.conjuncts = [conjunct] := by
    intro conjunct conjunct_mem
    rcases List.mem_append.mp conjunct_mem with here | there
    · exact Scalar.conjuncts_of_mem inner here
    · exact part_atoms _ conjunct there
  have inner_some : inner.conjuncts ≠ [] :=
    Scalar.conjuncts_ne_nil (Operator.condition_canonical input_places.canonical)
  refine ⟨Operator.canonical_joinOf kept_atoms .inner,
    LogicalOperator.derivesFrom_join kept_atoms (List.append_ne_nil_of_left_ne_nil inner_some _)
      (List.append_subset.mpr ⟨inner_subset, part_subset _⟩) .inner,
    List.cons_ne_nil _ _, ?_⟩
  refine List.forall_mem_cons.mpr ⟨?_, List.forall_mem_singleton.mpr
    ⟨[moved, last], (weight moved + weight last).card, rfl, ?_⟩⟩
  · exact Nat.lt_trans (input_places.lower stay stay_mem) (places.lower first (by simp))
  · exact descends.founds_join (inputs_lt moved moved_mem) last_lt fewer (part_atoms _) some_pushed
      (part_subset _)

theorem descends_of_filteredJoins (result_mem : result ∈ Rules.filteredJoins memo expression) :
    result.Descends ground weight expression.group := by
  rcases Rules.of_mem_filteredJoins result_mem with ⟨predicate, input, others, joined, type,
    condition, left, right, operator_eq, children_eq, joined_mem, join_eq, -, rfl⟩
  rcases Expression.join?_eq_some.mp join_eq with ⟨joined_operator_eq, inputs_eq⟩
  have places := descends.placed stored
  have joined_places := descends.placed_of_mem joined_mem
  rw [operator_eq, children_eq] at places
  rw [joined_operator_eq, inputs_eq] at joined_places
  have condition_canonical := Operator.condition_canonical joined_places.canonical
  have predicate_mem : LogicalOperator.filter predicate ∈ ground.operators := places.derives
  have predicate_subset : predicate.conjuncts ⊆ ground.operators.flatMap LogicalOperator.conjuncts :=
    fun conjunct conjunct_mem => List.mem_flatMap.mpr ⟨_, predicate_mem, conjunct_mem⟩
  refine ⟨?_, ?_, ?_, fun none => (List.cons_ne_nil _ _ none).elim⟩
  · refine Operator.canonical_joinOf ?_ .inner
    intro conjunct conjunct_mem
    rcases List.mem_append.mp conjunct_mem with here | there
    · exact Scalar.conjuncts_of_mem condition (List.mem_filter.mp here).1
    · exact Scalar.conjuncts_of_mem predicate there
  · exact List.Subset.trans (Rules.conjuncts_mergeConditions_subset condition_canonical predicate)
      (List.append_subset.mpr ⟨joined_places.derives, predicate_subset⟩)
  · intro child child_mem
    exact Nat.lt_trans (joined_places.lower child child_mem) (places.lower input List.mem_cons_self)

/-- A projection reads a scan of other columns, which is as low as any group can be. -/
theorem descends_of_projectedScans (result_mem : result ∈ Rules.projectedScans memo expression) :
    result.Descends ground weight expression.group := by
  rcases Rules.of_mem_projectedScans result_mem with ⟨scalars, aliases, input, others, scan, table,
    columns, predicate, operator_eq, children_eq, scan_mem, scan_eq, rfl⟩
  have places := descends.placed stored
  have scan_places := descends.placed_of_mem scan_mem
  have input_lt := descends.weighed.closed stored input (by simp [children_eq])
  rw [scan_eq] at scan_places
  rcases scan_places.derives with ⟨own, own_mem, -⟩
  have project_mem : LogicalOperator.project scalars aliases ∈ ground.operators := by
    have derives := places.derives
    rw [operator_eq] at derives
    exact derives
  have input_some := (descends.scanning input_lt).1
  refine ⟨places.canonical, places.derives, List.cons_ne_nil _ _, List.forall_mem_singleton.mpr
    ⟨[], 1, rfl, rfl, ⟨own, own_mem, .inr ⟨scalars, aliases, project_mem, rfl⟩⟩, rfl, ?_, Nat.one_pos,
      by simp, .inr ⟨rfl, ?_⟩⟩⟩
  · simp [Operator.scans, Operator.scanned?]
  · calc ground.step * 1 ≤ ground.step * (weight input).card := Nat.mul_le_mul_left _ input_some
      _ ≤ ground.grade weight input := Nat.le_add_right _ _
      _ < ground.grade weight expression.group := places.lower input (by simp [children_eq])

theorem descends_of_runs {number : RuleId} (runs : Rules.Runs number expression result) :
    result.Descends ground weight expression.group := by
  rcases runs with ⟨operator, physical, children, operator_eq, physical_mem, -, rfl, taken⟩
  have places := descends.placed stored
  have form_eq := LogicalOperator.form_of_mem physical_mem
  have children_eq : children = expression.children := by
    rcases taken with same | ⟨none, no_inputs⟩
    · exact same
    · have arity := (descends.weighed.balanced stored).arity
      rw [operator_eq] at arity
      rw [none, List.length_eq_zero_iff.mp (arity.trans no_inputs)]
  subst children_eq
  rw [operator_eq] at places
  have canonical : operator.canonical = operator := Operator.logical.inj places.canonical
  refine ⟨congrArg Operator.physical (LogicalOperator.canonical_of_mem canonical physical_mem), ?_,
    places.lower, places.leaf⟩
  rw [Operator.form, form_eq]
  exact places.derives

/-- A standard rule never fails on an expression of such a memo, and its results fit into it. -/
theorem applies {number : RuleId} {rule : Rule} {catalog : Catalog}
    (pair_mem : (number, rule) ∈ numberedTransformations ++ numberedImplementations) :
    ∃ results, rule.apply expression memo catalog = .ok (.results results) ∧
      ∀ result ∈ results, result.Grounded memo ∧ result.Balances weight expression.group ∧
        result.Descends ground weight expression.group := by
  obtain ⟨results, apply_eq, balance⟩ : ∃ results,
      rule.apply expression memo catalog = .ok (.results results) ∧ ∀ result ∈ results,
        result.Grounded memo ∧ result.Balances weight expression.group :=
    descends.weighed.applies stored pair_mem
  refine ⟨results, apply_eq, fun result result_mem =>
    ⟨(balance result result_mem).1, (balance result result_mem).2, ?_⟩⟩
  rcases List.mem_append.mp pair_mem with transforms | implements
  · rcases Rules.transformation_cases transforms apply_eq rfl with rfl | rfl | rfl | rfl
    · exact descends.descends_of_commuteJoin stored result_mem
    · exact descends.descends_of_associations stored result_mem
    · exact descends.descends_of_filteredJoins stored result_mem
    · exact descends.descends_of_projectedScans stored result_mem
  · obtain ⟨same, same_eq, runs⟩ : ∃ results,
        rule.apply expression memo catalog = .ok (.results results) ∧
          ∀ result ∈ results, Rules.Runs number expression result :=
      Rules.implementation_applies implements
    cases apply_eq.symm.trans same_eq
    exact descends.descends_of_runs stored (runs result result_mem)

end Results

end Memo.Descends

end Cascades
