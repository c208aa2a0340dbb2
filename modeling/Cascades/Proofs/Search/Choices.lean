import Mathlib.Data.Set.Card.Arithmetic
import Cascades.Proofs.Search.Coverage
import Cascades.Proofs.Search.Implemented

/-!
# Physical plans are logical plans with algorithms

A physical plan runs exactly one logical plan of its group, operator by operator. A logical plan can be
run by choosing an algorithm for each of its operators, in whatever combination. So there are as many
physical plans as the logical ones have choices in sum.
-/

namespace Cascades

open Rules (Runnable)

/-- The number of ways to run an operator over a number of inputs, if it is a logical one. -/
def Operator.choices : Operator → Nat → Nat
  | .logical operator, inputs => operator.choices inputs
  | .physical _, _ => 0

namespace Plan

mutual

/-- The number of ways to run a plan: an operator and all its inputs are run independently. -/
def choices : Plan → Nat
  | .node _ _ operator children => operator.choices children.length * choicesOf children

/-- The number of ways to run all plans of a list. -/
def choicesOf : List Plan → Nat
  | [] => 1
  | plan :: rest => plan.choices * choicesOf rest

end

mutual

/-- A plan of the same groups in which every operator is an algorithm for the one of another plan. -/
def Runs : Plan → Plan → Prop
  | .node home _ operator children, .node group _ form inputs =>
      home = group ∧ (∃ physical, operator = .physical physical ∧ form = .logical physical.form) ∧
        AllRun children inputs

/-- The plans of a list run those of another one in pairs. -/
def AllRun : List Plan → List Plan → Prop
  | [], [] => True
  | plan :: plans, form :: forms => Runs plan form ∧ AllRun plans forms
  | _, _ => False

end

/-- The group that a plan starts in. -/
def home : Plan → GroupId
  | .node home _ _ _ => home

/-- The expression at the top of a plan. -/
def expression : Plan → ExprId
  | .node _ id _ _ => id

/-- The plans of the inputs. -/
def children : Plan → List Plan
  | .node _ _ _ children => children

theorem homes_of_allRun {plans forms : List Plan} (allRun : AllRun plans forms) :
    plans.map home = forms.map home := by
  induction plans generalizing forms with
  | nil =>
      cases forms with
      | nil => rfl
      | cons => exact allRun.elim
  | cons plan rest ih =>
      cases forms with
      | nil => exact allRun.elim
      | cons form forms =>
          rcases plan with ⟨home, id, operator, children⟩
          rcases form with ⟨group, source, logical, inputs⟩
          rw [List.map_cons, List.map_cons, ih allRun.2]
          exact congrArg (· :: _) allRun.1.1

end Plan

namespace Memo

variable {memo : Memo} {kind : PlanKind}

theorem homes_of_arePlans {groups : List GroupId} {plans : List Plan}
    (arePlans : memo.ArePlans kind groups plans) : groups = plans.map Plan.home := by
  induction plans generalizing groups with
  | nil => exact arePlans_nil_right.mp arePlans
  | cons plan rest ih =>
      cases groups with
      | nil => exact arePlans.elim
      | cons group groups =>
          rcases plan with ⟨home, id, operator, children⟩
          rw [List.map_cons, ← ih arePlans.2]
          exact congrArg (· :: _) arePlans.1.1.symm

theorem expression_of_isPlan (consistent : memo.Consistent) {group home : GroupId} {id : ExprId}
    {operator : Operator} {children : List Plan}
    (isPlan : memo.IsPlan kind group (.node home id operator children)) :
    home = group ∧ ∃ expression, memo.expression? id = some expression ∧ expression.group = group ∧
      expression.operator = operator ∧ operator.planKind = kind ∧
        memo.ArePlans kind expression.children children := by
  rcases isPlan with ⟨home_eq, id_mem, expression, stored, operator_eq, arePlans⟩
  rcases consistent.mem_members.mp id_mem with ⟨same, same_stored, group_eq, kind_eq⟩
  cases stored.symm.trans same_stored
  exact ⟨home_eq, expression, stored, group_eq, operator_eq, operator_eq ▸ kind_eq, arePlans⟩

/-! ## The logical plan that is run -/

mutual

/-- A physical plan runs a logical one. -/
theorem Sourced.exists_form (sourced : memo.Sourced) (consistent : memo.Consistent) :
    (plan : Plan) → {group : GroupId} → memo.IsPlan .physical group plan →
      ∃ form, memo.IsPlan .logical group form ∧ plan.Runs form
  | .node home id operator children, group, isPlan => by
      rcases expression_of_isPlan consistent isPlan with
        ⟨home_eq, made, stored, group_eq, operator_eq, kind_eq, arePlans⟩
      rcases Operator.eq_physical kind_eq with ⟨physical, rfl⟩
      rcases sourced stored operator_eq with
        ⟨source, expression, source_stored, same_group, same_children, runnable⟩
      rw [← same_children] at arePlans
      rcases Sourced.exists_forms sourced consistent children arePlans with
        ⟨forms, formPlans, allRun⟩
      have source_mem : source ∈ PlanKind.logical.members memo group :=
        consistent.mem_members.mpr ⟨expression, source_stored, same_group.trans group_eq,
          by rw [runnable.operator]; rfl⟩
      exact ⟨.node group source (.logical physical.form) forms,
        ⟨rfl, source_mem, expression, source_stored, runnable.operator, formPlans⟩, home_eq,
        ⟨physical, rfl, rfl⟩, allRun⟩

theorem Sourced.exists_forms (sourced : memo.Sourced) (consistent : memo.Consistent) :
    (plans : List Plan) → {groups : List GroupId} → memo.ArePlans .physical groups plans →
      ∃ forms, memo.ArePlans .logical groups forms ∧ Plan.AllRun plans forms
  | [], [], _ => ⟨[], trivial, trivial⟩
  | plan :: rest, _ :: _, ⟨first, others⟩ => by
      rcases Sourced.exists_form sourced consistent plan first with ⟨form, isPlan, runs⟩
      rcases Sourced.exists_forms sourced consistent rest others with ⟨forms, arePlans, allRun⟩
      exact ⟨form :: forms, ⟨isPlan, arePlans⟩, runs, allRun⟩

end

mutual

/-- A plan runs one logical plan of a group at most. -/
theorem form_unique (consistent : memo.Consistent) : (plan : Plan) → {group : GroupId} →
    {first second : Plan} → memo.IsPlan .logical group first → memo.IsPlan .logical group second →
      plan.Runs first → plan.Runs second → first = second
  | .node _ _ _ children, group, .node left id operator inputs, .node right twin other twins, isPlan,
      twin_is, ⟨_, ⟨physical, operator_eq, form_eq⟩, allRun⟩, ⟨_, ⟨same, same_eq, twin_eq⟩, twins_run⟩ => by
      rcases expression_of_isPlan consistent isPlan with
        ⟨left_eq, expression, stored, -, stored_eq, -, arePlans⟩
      rcases expression_of_isPlan consistent twin_is with
        ⟨right_eq, found, found_stored, -, found_eq, -, twins_are⟩
      rw [operator_eq] at same_eq
      cases same_eq
      -- both forms lead to the groups that the plan itself leads to, so they are one stored shape
      have children_eq : expression.children = found.children := by
        rw [homes_of_arePlans arePlans, homes_of_arePlans twins_are, ← Plan.homes_of_allRun allRun,
          ← Plan.homes_of_allRun twins_run]
      have operators_eq : operator = other := form_eq.trans twin_eq.symm
      have id_eq : id = twin := by
        refine consistent.unique stored found_stored children_eq ?_
        rw [stored_eq, found_eq, operators_eq]
        exact Operator.same_self other
      rw [← children_eq] at twins_are
      rw [left_eq, right_eq, id_eq, operators_eq,
        forms_unique consistent children arePlans twins_are allRun twins_run]

theorem forms_unique (consistent : memo.Consistent) : (plans : List Plan) →
    {groups : List GroupId} → {first second : List Plan} → memo.ArePlans .logical groups first →
      memo.ArePlans .logical groups second → Plan.AllRun plans first → Plan.AllRun plans second →
        first = second
  | [], _, [], [], _, _, _, _ => rfl
  | _ :: _, [], [], _, _, _, runs, _ => runs.elim
  | plan :: rest, _ :: _, _ :: _, _ :: _, ⟨isPlan, arePlans⟩, ⟨twin_is, twins_are⟩, ⟨runs, allRun⟩,
      ⟨twin_runs, twins_run⟩ => by
      rw [form_unique consistent plan isPlan twin_is runs twin_runs,
        forms_unique consistent rest arePlans twins_are allRun twins_run]

end

/-! ## Counting the plans that run a logical plan -/

/-- The physical plans of a group that run a logical plan. -/
def runsOf (memo : Memo) (group : GroupId) (form : Plan) : Set Plan :=
  { plan | memo.IsPlan .physical group plan ∧ plan.Runs form }

/-- The lists of physical plans below some groups that run the given plans. -/
def runsOfAll (memo : Memo) (groups : List GroupId) (forms : List Plan) : Set (List Plan) :=
  { plans | memo.ArePlans .physical groups plans ∧ Plan.AllRun plans forms }

theorem runsOfAll_nil : memo.runsOfAll [] [] = {[]} := by
  ext plans
  cases plans with
  | nil => simp [runsOfAll, ArePlans, Plan.AllRun]
  | cons plan plans => simp [runsOfAll, ArePlans]

theorem runsOfAll_cons (group : GroupId) (groups : List GroupId) (form : Plan) (forms : List Plan) :
    memo.runsOfAll (group :: groups) (form :: forms) =
      (fun chosen : Plan × List Plan => chosen.1 :: chosen.2) ''
        memo.runsOf group form ×ˢ memo.runsOfAll groups forms := by
  ext plans
  cases plans with
  | nil => simp [runsOfAll, ArePlans]
  | cons plan plans => simp [runsOfAll, runsOf, ArePlans, Plan.AllRun, and_and_and_comm]

theorem ncard_runsOf_node (consistent : memo.Consistent) {group : GroupId} {id : ExprId}
    {expression : Expression} {operator : Operator} {inputs : List Plan}
    (group_eq : expression.group = group) (operator_eq : expression.operator = operator)
    (arePlans : memo.ArePlans .logical expression.children inputs) :
    (memo.runsOf group (.node group id operator inputs)).ncard =
      (memo.runners expression ×ˢ memo.runsOfAll expression.children inputs).ncard := by
  subst group_eq operator_eq
  have inversion {home : GroupId} {member : ExprId} {own : Operator} {children : List Plan}
      (runs : Plan.node home member own children ∈ memo.runsOf expression.group
        (.node expression.group id expression.operator inputs)) : home = expression.group ∧
          ∃ made, memo.expression? member = some made ∧ made.operator = own ∧
            member ∈ memo.runners expression ∧
              children ∈ memo.runsOfAll expression.children inputs := by
    rcases runs with ⟨isPlan, home_eq, ⟨physical, rfl, form_eq⟩, allRun⟩
    rcases expression_of_isPlan consistent isPlan with
      ⟨-, made, stored, group_eq, made_eq, -, made_plans⟩
    have children_eq : made.children = expression.children := by
      rw [homes_of_arePlans made_plans, homes_of_arePlans arePlans, Plan.homes_of_allRun allRun]
    exact ⟨home_eq, made, stored, made_eq, ⟨made, physical, stored, group_eq, children_eq, made_eq,
      form_eq⟩, children_eq ▸ made_plans, allRun⟩
  -- the expression at the top says which algorithm is run
  refine Set.ncard_congr (fun plan _ => (plan.expression, plan.children)) ?_ ?_ ?_
  · rintro ⟨home, member, own, children⟩ runs
    rcases inversion runs with ⟨-, -, -, -, member_mem, children_mem⟩
    exact ⟨member_mem, children_mem⟩
  · rintro ⟨home, member, own, children⟩ ⟨other, twin, twins, others⟩ runs twin_runs same
    rcases inversion runs with ⟨rfl, made, stored, rfl, -⟩
    rcases inversion twin_runs with ⟨rfl, found, found_stored, rfl, -⟩
    cases same
    cases stored.symm.trans found_stored
    rfl
  · rintro ⟨member, children⟩
      ⟨⟨made, physical, stored, group_eq, children_eq, made_eq, form_eq⟩, made_plans, allRun⟩
    have member_mem : member ∈ PlanKind.physical.members memo expression.group :=
      consistent.mem_members.mpr ⟨made, stored, group_eq, by rw [made_eq]; rfl⟩
    exact ⟨.node expression.group member (.physical physical) children,
      ⟨⟨rfl, member_mem, made, stored, made_eq, children_eq.symm ▸ made_plans⟩, rfl,
        ⟨physical, rfl, form_eq⟩, allRun⟩, rfl⟩

end Memo

namespace Implementing

variable {memo : Memo}

mutual

/-- A logical plan of an implemented group can be run in as many ways as it has choices. -/
theorem ncard_runsOf (implementing : Implementing memo) (layered : Layered .implement memo) :
    (form : Plan) → {group : GroupId} → memo.Reached group .implement →
      memo.IsPlan .logical group form → (memo.runsOf group form).ncard = form.choices
  | .node home id operator inputs, group, reached, isPlan => by
      have consistent := layered.built.consistent
      rcases Memo.expression_of_isPlan consistent isPlan with
        ⟨rfl, expression, stored, group_eq, operator_eq, kind_eq, arePlans⟩
      have below (child : GroupId) (child_mem : child ∈ expression.children) :
          memo.Reached child .implement :=
        layered.below reached (consistent.leadsTo_iff.mpr
          ⟨id, expression, stored, group_eq, by rw [operator_eq, kind_eq], child_mem⟩)
      have length_eq : expression.children.length = inputs.length := by
        rw [Memo.homes_of_arePlans arePlans, List.length_map]
      rcases Operator.eq_logical kind_eq with ⟨logical, rfl⟩
      rw [Memo.ncard_runsOf_node consistent group_eq operator_eq arePlans, Set.ncard_prod,
        (implementing.ncard_runners consistent stored operator_eq (group_eq ▸ reached)).2,
        ncard_runsOfAll implementing layered inputs below arePlans, length_eq]
      rfl

theorem ncard_runsOfAll (implementing : Implementing memo) (layered : Layered .implement memo) :
    (forms : List Plan) → {groups : List GroupId} →
      (∀ group ∈ groups, memo.Reached group .implement) → memo.ArePlans .logical groups forms →
        (memo.runsOfAll groups forms).ncard = Plan.choicesOf forms
  | [], [], _, _ => by
      rw [Memo.runsOfAll_nil, Set.ncard_singleton, Plan.choicesOf]
  | form :: forms, group :: groups, reached, ⟨isPlan, arePlans⟩ => by
      rcases List.forall_mem_cons.mp reached with ⟨first, others⟩
      have injective : Function.Injective fun chosen : Plan × List Plan => chosen.1 :: chosen.2 := by
        rintro ⟨plan, plans⟩ ⟨twin, twins⟩ same
        simpa using same
      rw [Memo.runsOfAll_cons, Set.ncard_image_of_injective _ injective, Set.ncard_prod,
        ncard_runsOf implementing layered form first isPlan,
        ncard_runsOfAll implementing layered forms others arePlans, Plan.choicesOf]

end

variable (implementing : Implementing memo)
include implementing

/-- The physical plans of a group are the ways to run its logical plans. -/
theorem plans_eq (consistent : memo.Consistent) (group : GroupId) : memo.plans .physical group =
    ⋃ form ∈ memo.plans .logical group, memo.runsOf group form := by
  ext plan
  simp only [Set.mem_iUnion, exists_prop]
  constructor
  · intro isPlan
    rcases implementing.sourced.exists_form consistent plan isPlan with ⟨form, form_is, runs⟩
    exact ⟨form, form_is, isPlan, runs⟩
  · rintro ⟨form, -, isPlan, -⟩
    exact isPlan

/-- An implemented group has as many physical plans as its logical ones have choices in sum. -/
theorem ncard_plans (layered : Layered .implement memo) {group : GroupId}
    (reached : memo.Reached group .implement) (finite : ∀ kind, (memo.plans kind group).Finite) :
    (memo.plans .physical group).ncard = ∑ᶠ form ∈ memo.plans .logical group, form.choices := by
  have consistent := layered.built.consistent
  have runs_finite (form : Plan) (_ : form ∈ memo.plans .logical group) :
      (memo.runsOf group form).Finite :=
    (finite .physical).subset fun plan runs => runs.1
  have disjoint : (memo.plans .logical group).PairwiseDisjoint (memo.runsOf group) := by
    intro first first_mem second second_mem different
    refine Set.disjoint_left.mpr ?_
    rintro plan ⟨-, runs⟩ ⟨-, twin_runs⟩
    exact different (Memo.form_unique consistent plan first_mem second_mem runs twin_runs)
  rw [implementing.plans_eq consistent, (finite .logical).ncard_biUnion runs_finite disjoint]
  exact finsum_mem_congr rfl fun form form_mem =>
    implementing.ncard_runsOf layered form reached form_mem

end Implementing

namespace Memo

variable {catalog : Catalog} {config : SearchConfig} {memo : Memo} {root : GroupId}
  {report : RunReport}

/-- Below a group that has been driven to the goal, a covered memo has finitely many plans. -/
theorem Covered.finite_plans {top : Goal} (covered : memo.Covered) (layered : Layered top memo)
    (reached : memo.Reached root top) (kind : PlanKind) : (memo.plans kind root).Finite := by
  rcases covered.counted layered reached kind with ⟨space, count, built, counted⟩
  exact (PlanSpace.represents_of_build layered.built.consistent built).finite_plans counted

/--
A search with the standard rules that implements and succeeds on a memo of logical expressions without
marks and flags: in every group that can be reached from the root, each logical expression is run by as
many physical ones as it has algorithms, over the same inputs and with the same payload, and there are no
other physical expressions. So the physical plans of the root are as many as its logical plans have
choices in sum.
-/
theorem search_implements (built : memo.Built) (unreached : ∀ id goal, ¬ memo.Reached id goal)
    (logical : ∀ expression ∈ memo.expressions, expression.operator.isLogical = true)
    (unmarked : ∀ expression ∈ memo.expressions, expression.applied = .empty)
    (implement : config.implement = true) (runs : memo.Runs .standard catalog config root report)
    (succeeded : report.outcome = .ok ()) :
    (∃ below, report.memo.reachableGroups root = .ok below ∧ ∀ group ∈ below,
      (∀ id expression operator, report.memo.expression? id = some expression →
        expression.group = group → expression.operator = .logical operator →
          (report.memo.runners expression).Finite ∧
            (report.memo.runners expression).ncard = operator.choices expression.children.length) ∧
      ∀ id made physical, report.memo.expression? id = some made → made.group = group →
        made.operator = .physical physical → ∃ source expression,
          report.memo.expression? source = some expression ∧ expression.group = group ∧
            id ∈ report.memo.runners expression) ∧
      (∀ kind, (report.memo.plans kind root).Finite) ∧
        (report.memo.plans .physical root).ncard =
          ∑ᶠ plan ∈ report.memo.plans .logical root, plan.choices := by
  have goal_eq : config.goal = .implement := by simp [SearchConfig.goal, implement]
  have started : Layered config.goal memo := .of_unreached built unreached
  have keeps := search_keeps implementing_discipline
    ⟨started, implementing_of_logical unreached logical unmarked⟩ runs
  rcases keeps.kept with ⟨layered, implementing⟩
  have reached := keeps.reached succeeded
  rw [goal_eq] at layered reached
  have consistent := layered.built.consistent
  have covered := implementing.sourced.covered consistent
  have finite := covered.finite_plans layered reached
  refine ⟨?_, finite, implementing.ncard_plans layered reached finite⟩
  rcases covered.reachableGroups layered reached with ⟨below, below_eq, all_reached⟩
  refine ⟨below, below_eq, fun group group_mem => ⟨?_, ?_⟩⟩
  · rintro id expression operator stored rfl operator_eq
    exact implementing.ncard_runners consistent stored operator_eq (all_reached _ group_mem)
  · rintro id made physical stored rfl operator_eq
    rcases implementing.sourced stored operator_eq with
      ⟨source, expression, source_stored, group_eq, children_eq, runnable⟩
    exact ⟨source, expression, source_stored, group_eq, made, physical, stored, group_eq.symm,
      children_eq.symm, operator_eq, runnable.operator⟩

/-- The report of a search of the joined pair, with the choices of its join. -/
def pairImplemented :=
  tested (PlanSpace.pairJoined.search .standard .empty ⟨100, none, true⟩ 2 false).toOption
    (fun report => decide (report.outcome = .ok () ∧
      (report.memo.expression? 2).map (fun join =>
        (join.group, join.operator.choices join.children.length)) = some (2, 4) ∧
          (report.memo.reachableGroups 2).toOption.any (·.contains 2) = true))
    (by decide +kernel)

/-- The join of two tables is run by two hash joins, a merge join and a nested loop. -/
theorem search_implements_pair : ∃ report join,
    PlanSpace.pairJoined.search .standard .empty ⟨100, none, true⟩ 2 false = .ok report ∧
      report.memo.expression? 2 = some join ∧ (report.memo.runners join).ncard = 4 ∧
        (report.memo.plans .physical 2).ncard =
          ∑ᶠ plan ∈ report.memo.plans .logical 2, plan.choices := by
  rcases pairImplemented with ⟨report, searched, facts⟩
  have report_eq := eq_ok_of_toOption searched
  rcases of_decide_eq_true facts with ⟨succeeded, chosen, contains⟩
  rcases Option.map_eq_some_iff.mp chosen with ⟨join, stored, pair_eq⟩
  rcases Prod.mk.inj pair_eq with ⟨group_eq, choices_eq⟩
  rcases search_implements built_pairJoined untouched_pairJoined.unreached
    (by decide) (by decide) rfl (.inl ⟨false, report_eq⟩) succeeded with
    ⟨⟨below, below_eq, implemented⟩, -, count_eq⟩
  rw [below_eq] at contains
  have root_mem : 2 ∈ below := by simpa [Except.toOption] using contains
  refine ⟨report, join, report_eq, stored, ?_, count_eq⟩
  cases operator_eq : join.operator with
  | physical physical =>
      rw [operator_eq] at choices_eq
      cases choices_eq
  | logical operator =>
      rw [((implemented 2 root_mem).1 2 join operator stored group_eq operator_eq).2, ← choices_eq,
        operator_eq]
      rfl

end Memo

end Cascades
