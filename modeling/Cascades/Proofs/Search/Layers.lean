import Cascades.Proofs.PlanSpace.Plans
import Cascades.Proofs.Rules.Algorithms
import Cascades.Proofs.Rules.Outcomes
import Cascades.Proofs.Search.Widening

/-!
# Groups lie in layers

A group is driven to the goal of a run after the groups that its logical expressions read, and gets no
logical expression from then on. So the groups that have been driven to the goal lie in layers, each
above those that it reads, whatever the rules give.

Jobs are made for logical expressions only. If every physical expression reads nothing but what some
logical one of its group reads, then the layers hold for physical expressions as well.
-/

namespace Cascades

open Relation

namespace Memo

variable {memo larger : Memo} {kind : PlanKind}

/-- A group reads the children of its expressions. -/
theorem Consistent.leadsTo_iff (consistent : memo.Consistent) {id next : GroupId} :
    memo.LeadsTo kind id next ↔ ∃ member expression, memo.expression? member = some expression ∧
      expression.group = id ∧ expression.operator.planKind = kind ∧ next ∈ expression.children := by
  constructor
  · rintro ⟨member, member_mem, next_mem⟩
    rcases consistent.mem_members.mp member_mem with ⟨expression, stored, group_eq, kind_eq⟩
    exact ⟨member, expression, stored, group_eq, kind_eq, inputs_eq stored ▸ next_mem⟩
  · rintro ⟨member, expression, stored, group_eq, kind_eq, next_mem⟩
    exact ⟨member, consistent.mem_members.mpr ⟨expression, stored, group_eq, kind_eq⟩,
      (inputs_eq stored).symm ▸ next_mem⟩

theorem Grows.leadsTo (grows : memo.Grows larger) (consistent : memo.Consistent)
    (larger_consistent : larger.Consistent) {id next : GroupId}
    (leads : memo.LeadsTo kind id next) : larger.LeadsTo kind id next := by
  rcases consistent.leadsTo_iff.mp leads with ⟨member, expression, stored, facts⟩
  rcases grows.expressions stored with ⟨applied, larger_stored, -⟩
  exact larger_consistent.leadsTo_iff.mpr ⟨member, _, larger_stored, facts⟩

theorem mem_logicalIds {id : GroupId} {member : ExprId} :
    member ∈ PlanKind.logical.members memo id ↔ member ∈ memo.logicalIds id := by
  rw [PlanKind.members, logicalIds]
  cases memo.group? id <;> rfl

/-- A group reads no more in a larger memo if its logical expressions are as before. -/
theorem Grows.leadsTo_of_frozen (grows : memo.Grows larger) (consistent : memo.Consistent)
    {id next : GroupId} (frozen : larger.logicalIds id = memo.logicalIds id)
    (leads : larger.LeadsTo .logical id next) : memo.LeadsTo .logical id next := by
  rcases leads with ⟨member, member_mem, next_mem⟩
  rw [mem_logicalIds, frozen, ← mem_logicalIds] at member_mem
  refine ⟨member, member_mem, ?_⟩
  rcases consistent.mem_members.mp member_mem with ⟨expression, stored, -⟩
  rcases grows.expressions stored with ⟨applied, larger_stored, -⟩
  rw [inputs_eq larger_stored] at next_mem
  rw [inputs_eq stored]
  exact next_mem

end Memo

/-! ## Layers -/

/--
A memo in which the groups that have been driven to a goal lie in layers: they read groups only that
have been driven to it as well, and reading on and on comes to an end.
-/
structure Layered (top : Goal) (memo : Memo) : Prop where
  built : memo.Built
  explored : ∀ {id}, memo.Reached id .implement → memo.Reached id .explore
  below : ∀ {id child}, memo.Reached id top → memo.LeadsTo .logical id child →
    memo.Reached child top
  founded : ∀ {id}, memo.Reached id top →
    Acc (fun child parent => memo.LeadsTo .logical parent child) id

namespace Layered

variable {top : Goal} {memo larger : Memo}

/-- Without flags there is nothing to show. -/
theorem of_unreached (built : memo.Built) (unreached : ∀ id goal, ¬ memo.Reached id goal) :
    Layered top memo where
  built := built
  explored := fun reached => (unreached _ _ reached).elim
  below := fun reached => (unreached _ _ reached).elim
  founded := fun reached => (unreached _ _ reached).elim

variable (layered : Layered top memo)
include layered

theorem reached_below {root id : GroupId} (reached : memo.Reached root top)
    (path : ReflTransGen (memo.LeadsTo .logical) root id) : memo.Reached id top := by
  induction path with
  | refl => exact reached
  | tail _ leads ih => exact layered.below ih leads

/-- No group below one that has been driven to the goal reads itself. -/
theorem acyclicBelow {root : GroupId} (reached : memo.Reached root top) :
    memo.AcyclicBelow .logical root := by
  have acyclic {id : GroupId}
      (accessible : Acc (TransGen fun child parent => memo.LeadsTo .logical parent child) id) :
      ¬ TransGen (memo.LeadsTo .logical) id id := by
    induction accessible with
    | intro id _ ih =>
        intro cycle
        exact ih id (transGen_swap.mpr cycle) cycle
  intro id path
  exact acyclic (layered.founded (layered.reached_below reached path)).transGen

/-- The layers stay if no group that has been driven to the goal gets a logical expression. -/
theorem widened (built : larger.Built) (widens : memo.Widens top larger) : Layered top larger := by
  have leads_before {id child : GroupId} (reached : memo.Reached id top)
      (leads : larger.LeadsTo .logical id child) : memo.LeadsTo .logical id child :=
    widens.grows.leadsTo_of_frozen layered.built.consistent (widens.frozen reached) leads
  refine ⟨built, ?_, ?_, ?_⟩
  · exact fun implemented => widens.flags.mpr (layered.explored (widens.flags.mp implemented))
  · intro id child reached leads
    have before := widens.flags.mp reached
    exact widens.flags.mpr (layered.below before (leads_before before leads))
  · intro id reached
    have before := widens.flags.mp reached
    have accessible := layered.founded before
    induction accessible with
    | intro id _ ih =>
        refine ⟨id, fun child leads => ?_⟩
        have leads := leads_before before leads
        have child_before := layered.below before leads
        exact ih child leads (widens.flags.mpr child_before) child_before

/-- A group gets a layer of its own once all that it reads has been driven to the goal. -/
theorem flagged {id : GroupId} {group : Group} {goal : Goal} (found : memo.group? id = some group)
    (explored : goal = .implement → memo.Reached id .explore)
    (ripe : ∀ member ∈ group.logical, ∃ expression, memo.Ripe member goal expression) :
    Layered top (memo.flagged id group goal) := by
  have extension : memo.Extends (memo.flagged id group goal) := Memo.extends_flagged found
  have leads_before {other child : GroupId}
      (leads : (memo.flagged id group goal).LeadsTo .logical other child) :
      memo.LeadsTo .logical other child :=
    extension.grows.leadsTo_of_frozen layered.built.consistent (Memo.logicalIds_flagged found) leads
  have children {child : GroupId} (leads : memo.LeadsTo .logical id child) :
      memo.Reached child goal := by
    rcases leads with ⟨member, member_mem, child_mem⟩
    rw [PlanKind.members_eq found] at member_mem
    rcases ripe member member_mem with ⟨expression, stored, below, -⟩
    exact below child (Memo.inputs_eq stored ▸ child_mem)
  have founded_before {other : GroupId} (reached : memo.Reached other top) :
      Acc (fun child parent => (memo.flagged id group goal).LeadsTo .logical parent child) other :=
    Subrelation.accessible (fun leads => leads_before leads) (layered.founded reached)
  refine ⟨layered.built.flagged goal found, ?_, ?_, ?_⟩
  · intro other implemented
    rcases (Memo.reached_flagged found).mp implemented with before | ⟨rfl, same⟩
    · exact extension.reached (layered.explored before)
    · exact extension.reached (explored same.symm)
  · intro other child reached leads
    rcases (Memo.reached_flagged found).mp reached with before | ⟨rfl, rfl⟩
    · exact extension.reached (layered.below before (leads_before leads))
    · exact extension.reached (children (leads_before leads))
  · intro other reached
    rcases (Memo.reached_flagged found).mp reached with before | ⟨rfl, rfl⟩
    · exact founded_before before
    · exact ⟨_, fun child leads => founded_before (children (leads_before leads))⟩

end Layered

section Discipline

variable {context : Context} {top : Goal}

/-- Applying a rule changes no group that has been driven to the goal of the run. -/
theorem Layered.widens_of_step {goal : Goal} {job : RuleJob} {expression : Expression}
    {outcome : Except Failure Step} {progress after : Progress} (layered : Layered top progress.memo)
    (within : goal.Within top) (stored : progress.memo.expression? job.expression = some expression)
    (unreached : ¬ progress.memo.Reached expression.group goal)
    (step_eq : job.step context progress = .ok (after, outcome)) :
    progress.memo.Widens top after.memo := by
  have open_ : ¬ progress.memo.Reached expression.group top := by
    intro reached
    cases goal with
    | implement => exact unreached (within rfl ▸ reached)
    | explore =>
        cases top with
        | explore => exact unreached reached
        | implement => exact unreached (layered.explored reached)
  exact (RuleJob.widens_of_step layered.built.consistent stored
    (fun reached => (open_ reached).elim) step_eq).1

theorem layered_discipline :
    Discipline context top (Layered top) (fun _ _ _ => True) where
  consistent := fun layered => layered.built.consistent
  applied := by
    intro goal rule id expression outcome progress after layered within _ ripe unreached _ step_eq
    have widens := layered.widens_of_step within ripe.stored unreached step_eq
    refine ⟨layered.widened (RuleJob.step_built layered.built step_eq) widens, widens.grows,
      fun _ => trivial, widens.flags.mp, ?_⟩
    exact fun step same => ⟨(RuleJob.marks_of_step step_eq).1 step same, trivial⟩
  marked := by
    intro memo id goal group layered found _ explored served
    refine ⟨layered.flagged found explored fun member member_mem => ?_, fun _ => trivial⟩
    rcases served member member_mem with ⟨expression, ripe, -⟩
    exact ⟨expression, ripe⟩
  passed_over := fun _ _ _ _ _ _ => trivial

end Discipline

/-! ## Physical expressions -/

/-- Physical expressions read no other groups than the logical ones of their group do. -/
def Memo.Covered (memo : Memo) : Prop :=
  ∀ id next, memo.LeadsTo .physical id next → memo.LeadsTo .logical id next

/--
A result brings no physical expression, or one over inputs of the expression that the rule was applied
to.
-/
def RuleResult.Covers (expression : Expression) : RuleResult → Prop
  | .substitution operator children =>
      operator.isLogical = true ∨ children ⊆ expression.children
  | .nested operator children =>
      ∀ part ∈ operator :: Subplan.operatorsOf children, part.isLogical = true

/-- The physical expressions that a rule gives are over inputs of the expression it is applied to. -/
def Rule.Covers (rule : Rule) : Prop :=
  ∀ {expression memo catalog application results},
    rule.apply expression memo catalog = .ok application → application.outcome = .ok results →
      ∀ result ∈ results, result.Covers expression

namespace Memo.Covered

variable {memo larger : Memo}

theorem of_logical (consistent : memo.Consistent) (logical : ∀ {id expression},
    memo.expression? id = some expression → expression.operator.isLogical = true) :
    memo.Covered := by
  intro id next leads
  rcases consistent.leadsTo_iff.mp leads with ⟨member, expression, stored, -, kind_eq, -⟩
  simp [Operator.planKind, logical stored] at kind_eq

theorem leadsTo (covered : memo.Covered) {kind : PlanKind} {id next : GroupId}
    (leads : memo.LeadsTo kind id next) : memo.LeadsTo .logical id next := by
  cases kind with
  | logical => exact leads
  | physical => exact covered id next leads

/-- Where logical expressions do not lead back, nor do physical ones. -/
theorem acyclicBelow (covered : memo.Covered) {root : GroupId}
    (acyclic : memo.AcyclicBelow .logical root) (kind : PlanKind) : memo.AcyclicBelow kind root :=
  fun group path cycle => acyclic group (path.lift id fun _ _ => covered.leadsTo)
    (cycle.lift id fun _ _ => covered.leadsTo)

theorem of_successors (covered : memo.Covered) {id next : GroupId}
    (next_mem : next ∈ memo.successors id) : memo.LeadsTo .logical id next := by
  rcases mem_successors next_mem with
    ⟨group, member, expression, found, member_mem, stored, child_mem⟩
  rcases List.mem_append.mp member_mem with logical | physical
  · exact ⟨member, by rwa [PlanKind.members_eq found], by rwa [inputs_eq stored]⟩
  · exact covered id next
      ⟨member, by rwa [PlanKind.members_eq found], by rwa [inputs_eq stored]⟩

theorem flagged (covered : memo.Covered) {id : GroupId} {group : Group} {goal : Goal}
    (found : memo.group? id = some group) : (memo.flagged id group goal).Covered := by
  have same (kind : PlanKind) (other : GroupId) :
      kind.members (memo.flagged id group goal) other = kind.members memo other := by
    rw [PlanKind.members, PlanKind.members, group?_flagged found]
    by_cases here : id = other
    · rw [if_pos here, ← here, found]
      cases goal <;> cases kind <;> rfl
    · rw [if_neg here]
  have leads_iff {kind : PlanKind} {other next : GroupId} :
      (memo.flagged id group goal).LeadsTo kind other next ↔ memo.LeadsTo kind other next := by
    rw [LeadsTo, same]
    rfl
  intro other next leads
  exact leads_iff.mpr (covered other next (leads_iff.mp leads))

/-- Applying a rule keeps physical expressions covered if its results are. -/
theorem of_step {context : Context} {job : RuleJob} {progress after : Progress}
    {expression : Expression} {outcome : Except Failure Step} (covered : progress.memo.Covered)
    (consistent : progress.memo.Consistent) (after_consistent : after.memo.Consistent)
    (grows : progress.memo.Grows after.memo)
    (stored : progress.memo.expression? job.expression = some expression)
    (covers : ∀ {rule}, context.rules.lookup job.rule = .ok rule → rule.Covers)
    (step_eq : job.step context progress = .ok (after, outcome)) : after.memo.Covered := by
  intro id next leads
  rcases after_consistent.leadsTo_iff.mp leads with
    ⟨member, made, made_stored, rfl, kind_eq, next_mem⟩
  have physical : made.operator.isLogical = false := by
    cases logical : made.operator.isLogical with
    | false => rfl
    | true => simp [Operator.planKind, logical] at kind_eq
  rcases RuleJob.adding_of_step consistent stored step_eq member made made_stored with
    ⟨before, before_stored, same⟩ | ⟨rule, application, results, lookup_eq, apply_eq, results_eq,
      result, result_mem, makes⟩
  · rw [same] at kind_eq next_mem ⊢
    exact grows.leadsTo consistent after_consistent (covered _ _
      (consistent.leadsTo_iff.mpr ⟨member, before, before_stored, rfl, kind_eq, next_mem⟩))
  · have result_covers := covers lookup_eq apply_eq results_eq result result_mem
    cases result with
    | nested operator children =>
        rcases makes.operator with ⟨part, part_mem, operator_eq⟩
        rw [operator_eq, Operator.isLogical_canonical, result_covers part part_mem] at physical
        cases physical
    | substitution operator children =>
        rcases makes with ⟨operator_eq, group_eq, children_eq⟩
        rcases result_covers with logical | inputs
        · rw [operator_eq, Operator.isLogical_canonical, logical] at physical
          cases physical
        · have reads : next ∈ expression.children := inputs (children_eq ▸ next_mem)
          rw [group_eq]
          exact grows.leadsTo consistent after_consistent (covered.leadsTo
            (consistent.leadsTo_iff.mpr ⟨job.expression, expression, stored, rfl, rfl, reads⟩))

end Memo.Covered

/-- Runs keep the layers, and physical expressions covered if all rules do. -/
theorem covered_discipline {context : Context} {top : Goal}
    (covers : ∀ {goal id rule}, id ∈ context.phase goal → context.rules.lookup id = .ok rule →
      rule.Covers) :
    Discipline context top (fun memo => Layered top memo ∧ memo.Covered) (fun _ _ _ => True) := by
  refine layered_discipline.and ?_ fun _ covered found => covered.flagged found
  intro goal rule id expression outcome progress after layered covered rule_mem ripe _ step_eq
    after_layered grows
  exact covered.of_step layered.built.consistent after_layered.built.consistent grows ripe.stored
    (covers rule_mem) step_eq

theorem Rules.covers_standard {catalog : Catalog} {config : SearchConfig} {goal : Goal} {id : RuleId}
    {rule : Rule} (rule_mem : id ∈ (Memo.context .standard catalog config).phase goal)
    (lookup_eq : Rulebook.standard.lookup id = .ok rule) : rule.Covers := by
  intro expression memo reading application results apply_eq results_eq result result_mem
  cases goal with
  | explore =>
      rw [phase_explore] at rule_mem
      rcases List.mem_map.mp rule_mem with ⟨⟨_, held⟩, pair_mem, rfl⟩
      rw [Rulebook.lookup_transformation pair_mem] at lookup_eq
      cases lookup_eq
      have logical := transformation_logical pair_mem apply_eq results_eq result result_mem
      cases result with
      | substitution operator children => exact .inl (logical operator List.mem_cons_self)
      | nested operator children => exact logical
  | implement =>
      rw [phase_implement] at rule_mem
      rcases List.mem_map.mp rule_mem with ⟨⟨_, held⟩, pair_mem, rfl⟩
      rw [Rulebook.lookup_implementation pair_mem] at lookup_eq
      cases lookup_eq
      rcases implementation_applies pair_mem with ⟨made, made_eq, runs⟩
      cases apply_eq.symm.trans made_eq
      cases results_eq
      have result_implements := (runs result result_mem).implements
      cases result with
      | nested operator children => exact result_implements.elim
      | substitution operator children =>
          rcases result_implements.2 with rfl | rfl
          · exact .inr (List.Subset.refl _)
          · exact .inr (List.nil_subset _)

end Cascades
