import Cascades.Proofs.Rules.Algorithms
import Cascades.Proofs.Search.Widening

/-!
# Memos without dangling references

A memo whose expressions have only children that exist stays so, whatever groups the results of the
rules name: a result is checked before it is stored. On such a memo no step of a run follows a
dangling reference, if the rules by themselves follow none.
-/

namespace Cascades

open Memo

/-- A memo that can be built, in which all children of expressions exist. -/
structure Memo.Intact (memo : Memo) : Prop where
  built : memo.Built
  closed : memo.Closed

/-- A rule that gives an answer on every stored expression of an intact memo. -/
structure Rule.Total (rule : Rule) (catalog : Catalog) : Prop where
  promises : ∀ {memo : Memo} {id : ExprId} {expression : Expression}, memo.Intact →
    memo.expression? id = some expression →
      ∃ promise, rule.promise expression memo catalog = .ok promise
  applies : ∀ {memo : Memo} {id : ExprId} {expression : Expression}, memo.Intact →
    memo.expression? id = some expression →
      ∃ application, rule.apply expression memo catalog = .ok application

/-- All active rules are total. -/
def Rulebook.Total (rules : Rulebook) (catalog : Catalog) : Prop :=
  ∀ {id rule}, rules.lookup id = .ok rule → rule.Total catalog

theorem Rules.implementation_promises {number : RuleId} {rule : Rule} {memo : Memo}
    {catalog : Catalog} {expression : Expression}
    (pair_mem : (number, rule) ∈ numberedImplementations) :
    ∃ promise, rule.promise expression memo catalog = .ok promise := by
  simp only [numberedImplementations_eq, List.mem_cons, List.not_mem_nil, or_false,
    Prod.mk.injEq] at pair_mem
  rcases pair_mem with ⟨-, rfl⟩ | ⟨-, rfl⟩ | ⟨-, rfl⟩ | ⟨-, rfl⟩ | ⟨-, rfl⟩ | ⟨-, rfl⟩ |
    ⟨-, rfl⟩ | ⟨-, rfl⟩ | ⟨-, rfl⟩ | ⟨-, rfl⟩
  · dsimp only [hashJoin]
    split
    · exact ⟨_, rfl⟩
    · exact ⟨_, rfl⟩
  · dsimp only [mergeJoin]
    split
    · exact ⟨_, rfl⟩
    · exact ⟨_, rfl⟩
  · dsimp only [nestedLoopJoin]
    split
    · exact ⟨_, rfl⟩
    · exact ⟨_, rfl⟩
  all_goals exact ⟨.medium, rfl⟩

/-- The standard rules only look at groups that exist. -/
theorem Rules.total_standard (catalog : Catalog) : Rulebook.standard.Total catalog := by
  intro id rule lookup_eq
  rcases Rulebook.mem_numbered lookup_eq with ⟨number, pair_mem⟩
  rcases List.mem_append.mp pair_mem with transforms | implements
  · have steady : rule.Steady catalog := steady_of_mem transforms
    constructor
    · intro memo target expression intact stored
      rw [← intact.built.consistent.numbered stored] at stored
      exact steady.promises intact.built.consistent intact.closed stored
    · intro memo target expression intact stored
      rw [← intact.built.consistent.numbered stored] at stored
      rcases steady.applies intact.built.consistent intact.closed stored with
        ⟨results, apply_eq, -⟩
      exact ⟨_, apply_eq⟩
  · constructor
    · intro memo target expression _ _
      exact implementation_promises implements
    · intro memo target expression _ _
      rcases @implementation_applies memo catalog expression _ _ implements with
        ⟨results, apply_eq, -⟩
      exact ⟨_, apply_eq⟩

section Insert

variable {memo : Memo} {operator : Operator} {children : List GroupId} {origin : Option RuleId}

theorem Memo.Intact.add (intact : memo.Intact)
    (exist : ∀ child ∈ children, child < memo.groups.size) :
    (memo.add operator children origin).1.Intact ∧
      memo.groups.size ≤ (memo.add operator children origin).1.groups.size ∧
        (memo.add operator children origin).2.1 <
          (memo.add operator children origin).1.groups.size := by
  rcases add_spec (fun _ => True) intact.built.consistent intact.closed exist
    (fun _ => trivial) with ⟨grown, expression, found, group_eq, -⟩
  refine ⟨⟨intact.built.add operator children origin, grown.closed⟩, grown.extends_.size_le, ?_⟩
  rw [← group_eq]
  exact grown.consistent.group_lt (grown.consistent.find?_id found)

theorem Memo.Intact.addTo (intact : memo.Intact) {group : GroupId}
    (exists_ : group < memo.groups.size) (exist : ∀ child ∈ children, child < memo.groups.size) :
    ∃ larger insertion, memo.addTo group operator children origin = .ok (larger, insertion) ∧
      larger.Intact ∧ memo.groups.size ≤ larger.groups.size := by
  rcases addTo_succeeds exists_ operator children origin with ⟨larger, insertion, added⟩
  refine ⟨larger, insertion, added, ⟨intact.built.addTo added, ?_⟩, ?_⟩
  · rcases addTo_cases added with ⟨rfl, -⟩ | ⟨rfl, -⟩
    · exact intact.closed
    · exact Closed.push intact.closed exist
  · rcases addTo_cases added with ⟨rfl, -⟩ | ⟨rfl, -⟩
    · exact Nat.le_refl _
    · exact grows_push.size_le

end Insert

/-! ## Storing results -/

namespace RuleJob

variable {rule : RuleId}

theorem exist_of_checkGroups {memo : Memo} {groups : List GroupId}
    (checked : checkGroups rule memo groups = .ok ()) :
    ∀ group ∈ groups, group < memo.groups.size := by
  rw [checkGroups] at checked
  split at checked
  · cases checked
  · rename_i none
    intro group group_mem
    simpa [holdsGroup] using List.find?_eq_none.mp none group group_mem

mutual

/-- A stored sub-plan is held by a group that exists. If it cannot be stored, nothing dangles. -/
theorem store_intact {memo : Memo} (intact : memo.Intact) : (plan : Subplan) →
    (store rule memo plan).1.Intact ∧
      memo.groups.size ≤ (store rule memo plan).1.groups.size ∧
        ∀ group, (store rule memo plan).2 = .ok group →
          group < (store rule memo plan).1.groups.size
  | .group id => by
      rw [store]
      refine ⟨intact, Nat.le_refl _, ?_⟩
      intro group stored
      cases checked : checkGroups rule memo [id] with
      | error failure =>
          rw [checked] at stored
          cases stored
      | ok =>
          rw [checked] at stored
          cases stored
          exact exist_of_checkGroups checked _ List.mem_cons_self
  | .fresh operator children => by
      rcases storeAll_intact intact children with ⟨middle_intact, size_le, exist⟩
      rw [store]
      generalize storeAll rule memo children = inputs at middle_intact size_le exist
      rcases inputs with ⟨middle, failure | groups⟩
      · exact ⟨middle_intact, size_le, fun _ stored => by cases stored⟩
      · rcases @Intact.add middle operator groups (some rule) middle_intact (exist groups rfl) with
          ⟨larger_intact, larger_le, exists_⟩
        refine ⟨larger_intact, Nat.le_trans size_le larger_le, ?_⟩
        intro group stored
        cases stored
        exact exists_

theorem storeAll_intact {memo : Memo} (intact : memo.Intact) : (plans : List Subplan) →
    (storeAll rule memo plans).1.Intact ∧
      memo.groups.size ≤ (storeAll rule memo plans).1.groups.size ∧
        ∀ groups, (storeAll rule memo plans).2 = .ok groups →
          ∀ group ∈ groups, group < (storeAll rule memo plans).1.groups.size
  | [] => by
      rw [storeAll]
      refine ⟨intact, Nat.le_refl _, ?_⟩
      intro groups stored group group_mem
      cases stored
      cases group_mem
  | child :: rest => by
      rcases store_intact intact child with ⟨first_intact, first_le, first_exists⟩
      rw [storeAll]
      generalize store rule memo child = first at first_intact first_le first_exists
      rcases first with ⟨middle, failure | group⟩
      · exact ⟨first_intact, first_le, fun _ stored => by cases stored⟩
      · rcases storeAll_intact first_intact rest with ⟨larger_intact, larger_le, exist⟩
        dsimp only
        generalize storeAll rule middle rest = others at larger_intact larger_le exist
        rcases others with ⟨larger, failure | groups⟩
        · exact ⟨larger_intact, Nat.le_trans first_le larger_le, fun _ stored => by cases stored⟩
        · refine ⟨larger_intact, Nat.le_trans first_le larger_le, ?_⟩
          intro all stored other other_mem
          cases stored
          rcases List.mem_cons.mp other_mem with rfl | other_mem
          · exact Nat.lt_of_lt_of_le (first_exists other rfl) larger_le
          · exact exist groups rfl other other_mem

end

theorem prepare_intact {memo : Memo} (intact : memo.Intact) (result : RuleResult) :
    (prepare rule memo result).1.Intact ∧
      memo.groups.size ≤ (prepare rule memo result).1.groups.size ∧
        ∀ operator groups, (prepare rule memo result).2 = .ok (operator, groups) →
          ∀ group ∈ groups, group < (prepare rule memo result).1.groups.size := by
  cases result with
  | substitution operator children =>
      refine ⟨intact, Nat.le_refl _, ?_⟩
      intro top groups prepared
      rw [prepare] at prepared
      cases checked : checkGroups rule memo children with
      | error failure =>
          rw [checked] at prepared
          cases prepared
      | ok =>
          rw [checked] at prepared
          cases prepared
          exact exist_of_checkGroups checked
  | nested operator children =>
      rcases @storeAll_intact rule memo intact children with ⟨larger_intact, size_le, exist⟩
      rw [prepare]
      generalize storeAll rule memo children = inputs at larger_intact size_le exist
      rcases inputs with ⟨larger, failure | groups⟩
      · exact ⟨larger_intact, size_le, fun _ _ prepared => by cases prepared⟩
      · refine ⟨larger_intact, size_le, ?_⟩
        intro top all prepared
        cases prepared
        exact exist groups rfl

/-- Storing results ends, with a failure if one of them names a group that does not exist. -/
theorem insertAll_intact {memo : Memo} (intact : memo.Intact) {group : GroupId}
    (exists_ : group < memo.groups.size) (added : Nat) (results : List RuleResult) :
    ∃ larger total outcome, insertAll rule group memo added results =
      .ok (larger, total, outcome) ∧ larger.Intact := by
  induction results generalizing memo added with
  | nil => exact ⟨memo, added, .ok (), rfl, intact⟩
  | cons result rest ih =>
      rcases @prepare_intact rule memo intact result with ⟨middle_intact, size_le, exist⟩
      rw [insertAll]
      generalize prepare rule memo result = prepared at middle_intact size_le exist
      rcases prepared with ⟨middle, failure | ⟨operator, groups⟩⟩
      · exact ⟨middle, added, .error failure, rfl, middle_intact⟩
      · rcases @Intact.addTo middle operator groups (some rule) middle_intact group
          (Nat.lt_of_lt_of_le exists_ size_le) (exist operator groups rfl) with
          ⟨next, insertion, inserted, next_intact, next_le⟩
        simp only [inserted, bind, Except.bind]
        exact ih next_intact (Nat.lt_of_lt_of_le exists_ (Nat.le_trans size_le next_le)) _

/-- A job that applies a total rule leaves nothing dangling. -/
theorem step_intact {context : Context} {job : RuleJob} {progress : Progress}
    {expression : Expression} (total : context.rules.Total context.catalog)
    (intact : progress.memo.Intact)
    (stored : progress.memo.expression? job.expression = some expression) :
    ∃ after outcome, job.step context progress = .ok (after, outcome) ∧ after.memo.Intact := by
  have consistent := intact.built.consistent
  have marked_eq := @markApplied_eq _ _ job.rule consistent expression stored
  have marked_intact : (progress.memo.marked expression job.rule).Intact :=
    ⟨intact.built.markApplied marked_eq, Closed.marked consistent intact.closed stored⟩
  rw [step, marked_eq]
  simp only [bind, Except.bind, pure, Except.pure]
  split
  · exact ⟨_, _, rfl, marked_intact⟩
  · cases lookup_eq : context.rules.lookup job.rule with
    | error failure => exact ⟨_, _, rfl, marked_intact⟩
    | ok rule =>
        have marked_stored := @expression?_marked _ _ job.rule consistent expression stored
          job.expression
        rw [if_pos rfl] at marked_stored
        simp only [Memo.expression, marked_stored, run]
        rcases (total lookup_eq).applies marked_intact marked_stored with
          ⟨application, apply_eq⟩
        simp only [apply_eq, bind, Except.bind, pure, Except.pure]
        split
        · exact ⟨_, _, rfl, marked_intact⟩
        · exact ⟨_, _, rfl, marked_intact⟩
        · rename_i results _
          have exists_ : expression.group < (progress.memo.marked expression job.rule).groups.size :=
            consistent.group_lt stored
          rcases insertAll_intact marked_intact exists_ 0 results with
            ⟨larger, added, outcome, inserted, larger_intact⟩
          rw [inserted]
          exact ⟨_, _, rfl, larger_intact⟩

end RuleJob

/-! ## Choosing rules -/

namespace ExpressionJob

variable {context : Context} {memo : Memo} {job : ExpressionJob} {expression : Expression}
  (total : context.rules.Total context.catalog) (intact : memo.Intact)
include total intact

theorem candidate_total (stored : memo.expression? job.expression = some expression) (id : RuleId) :
    ∃ found, job.candidate context memo expression id = .ok found := by
  rw [candidate, Memo.isApplied, Memo.expression, stored]
  simp only [bind, Except.bind, pure, Except.pure]
  split
  · exact ⟨_, rfl⟩
  · split
    · exact ⟨_, rfl⟩
    · cases lookup_eq : context.rules.lookup id with
      | error failure => exact ⟨_, rfl⟩
      | ok rule =>
          rcases Pattern.fits_spec intact.built.consistent intact.closed rule.pattern stored with
            ⟨answer, fits_eq, -⟩
          rcases (total lookup_eq).promises intact stored with ⟨promise, promise_eq⟩
          simp only [fits_eq, promise_eq]
          split
          · exact ⟨_, rfl⟩
          · split
            · exact ⟨_, rfl⟩
            · exact ⟨_, rfl⟩

theorem candidates_total (stored : memo.expression? job.expression = some expression)
    (ids : List RuleId) : ∃ found, job.candidates context memo expression ids = .ok found := by
  induction ids with
  | nil => exact ⟨_, rfl⟩
  | cons id rest ih =>
      rcases candidate_total total intact stored id with ⟨first | first, first_eq⟩
      · exact ⟨.error first, by rw [candidates, first_eq]; rfl⟩
      · rcases ih with ⟨others | others, rest_eq⟩
        · refine ⟨.error others, ?_⟩
          rw [candidates, first_eq]
          simp only [rest_eq, bind, Except.bind, pure, Except.pure]
        · refine ⟨.ok (first.toList ++ others), ?_⟩
          rw [candidates, first_eq]
          simp only [rest_eq, bind, Except.bind, pure, Except.pure]

theorem scheduleRules_total (stored : memo.expression? job.expression = some expression) :
    ∃ outcome, job.scheduleRules context memo expression = .ok outcome := by
  rw [scheduleRules]
  split
  · exact ⟨_, rfl⟩
  · split
    · exact ⟨_, rfl⟩
    · exact ⟨_, rfl⟩
    · rcases candidates_total total intact stored
        ((context.rules.rulesFor job.goal).intersection context.mask).toList with
        ⟨found, candidates_eq⟩
      simp only [applicableRules, candidates_eq, bind, Except.bind, pure, Except.pure]
      split
      · exact ⟨_, rfl⟩
      · exact ⟨_, rfl⟩
      · exact ⟨_, rfl⟩

theorem step_total (job : ExpressionJob) : ∃ outcome, job.step context memo = .ok outcome := by
  rw [step]
  cases stored : memo.expression? job.expression with
  | none => exact ⟨_, rfl⟩
  | some expression =>
      dsimp only
      split
      · exact scheduleRules_total total intact stored
      · exact scheduleRules_total total intact stored
      · exact ⟨_, rfl⟩

end ExpressionJob

/-! ## Runs -/

/-- Whatever the rules are, a memo that can be built stays one, and no flag is set by a rule. -/
theorem built_discipline (context : Context) (top : Goal) :
    Discipline context top Memo.Built fun _ _ _ => True where
  consistent := fun built => built.consistent
  applied := by
    intro goal rule id expression outcome progress after built _ _ ripe unreached _ step_eq
    rcases @RuleJob.widens_of_step goal _ _ _ _ _ _ built.consistent ripe.stored
      (fun reached => (unreached reached).elim) step_eq with ⟨widens, -⟩
    exact ⟨RuleJob.step_built built step_eq, widens.grows, fun _ => trivial, widens.flags.mp,
      fun step same => ⟨(RuleJob.marks_of_step step_eq).1 step same, trivial⟩⟩
  marked := fun built found _ _ _ => ⟨built.flagged _ found, fun _ => trivial⟩
  passed_over := fun _ _ _ _ _ _ => trivial

/-- If the rules are total, an intact memo stays intact. -/
theorem intact_discipline {context : Context} (total : context.rules.Total context.catalog)
    (top : Goal) : Discipline context top Memo.Intact fun _ _ _ => True where
  consistent := fun intact => intact.built.consistent
  applied := by
    intro goal rule id expression outcome progress after intact within rule_mem ripe unreached
      matched step_eq
    rcases @RuleJob.step_intact _ ⟨rule, id⟩ _ _ total intact ripe.stored with
      ⟨_, _, same_eq, after_intact⟩
    cases step_eq.symm.trans same_eq
    exact ⟨after_intact, ((built_discipline context top).applied intact.built within rule_mem ripe
      unreached matched step_eq).2⟩
  marked := fun intact found _ _ _ =>
    ⟨⟨intact.built.flagged _ found, Closed.flagged intact.closed⟩, fun _ => trivial⟩
  passed_over := fun _ _ _ _ _ _ => trivial

namespace RunState

variable {context : Context} {Done : Memo → RuleId → ExprId → Prop} {root : GroupId} {goal : Goal}
  {state : RunState}

/-- A step of a run with total rules follows no dangling reference. -/
theorem Invariant.advance_total (total : context.rules.Total context.catalog)
    (invariant : state.Invariant context Memo.Intact Done root goal) :
    ∃ after record, state.advance context = .ok (after, record) := by
  rw [RunState.advance]
  cases next_eq : state.agenda.next state.progress.cancelled with
  | mk taken handed =>
      cases handed with
      | none => exact ⟨_, none, rfl⟩
      | some pair =>
          rcases pair with ⟨id, job⟩
          have stepped : ∃ after outcome, job.step context state.progress = .ok (after, outcome) := by
            cases job with
            | group job => exact ⟨_, _, rfl⟩
            | expression job =>
                rcases ExpressionJob.step_total total invariant.kept job with ⟨outcome, step_eq⟩
                exact ⟨_, outcome, by rw [Job.step, step_eq]; rfl⟩
            | applyRule job =>
                have ordered := invariant.orderly (Agenda.running_of_next next_eq)
                rcases Agenda.next_spec ordered.consistent next_eq with ⟨-, -, request, took⟩
                rcases ordered.asked took (ordered.progressed took).1.symm with
                  ⟨_, expression, -, -, ripe, -⟩
                let started : Progress :=
                  { state.progress with executed := state.progress.executed + 1 }
                have intact : started.memo.Intact := invariant.kept
                rcases RuleJob.step_intact total intact ripe.stored with
                  ⟨after, outcome, step_eq, -⟩
                exact ⟨after, outcome, step_eq⟩
          rcases stepped with ⟨after, outcome, step_eq⟩
          simp only [step_eq, bind, Except.bind, pure, Except.pure]
          exact ⟨_, _, rfl⟩

/-- A run with total rules on an intact memo follows no dangling reference, however long it is. -/
theorem Invariant.drive_total (total : context.rules.Total context.catalog)
    (invariant : state.Invariant context Memo.Intact (fun _ _ _ => True) root goal) (steps : Nat) :
    ∃ after records, state.drive context steps = .ok (after, records) := by
  induction steps generalizing state with
  | zero => exact ⟨state, [], rfl⟩
  | succ steps ih =>
      rcases invariant.advance_total total with ⟨next, record, advance_eq⟩
      have still := (invariant.advance (intact_discipline total goal) advance_eq).1
      rw [RunState.drive, advance_eq]
      cases record with
      | none => exact ⟨next, [], rfl⟩
      | some record =>
          rcases ih still with ⟨after, records, drive_eq⟩
          simp only [drive_eq, bind, Except.bind, pure, Except.pure]
          exact ⟨after, record :: records, rfl⟩

end RunState

end Cascades
