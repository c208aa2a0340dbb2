import Cascades.Proofs.Search.Widening

/-!
# Histories of runs

A memo is searched in run after run, each of which may end at any time. The history keeps what every
step has found, so that it tells when the rules of an expression were last chosen and which of them
were not to be applied then. A rule is decided on for an expression once it is marked, or was not to
be applied at the last choice; a new choice undoes no more than what the choosing job goes on to do.
-/

namespace Cascades

/-- A step of a job, with the catalog and the memo that it finds. -/
structure Moment where
  catalog : Catalog
  memo : Memo
  job : Job

namespace Moment

/-- Whether the step chooses the rules of an expression for a goal. -/
def chooses (moment : Moment) (id : ExprId) (goal : Goal) : Bool :=
  match moment.job with
  | .expression job =>
      job.expression == id && job.goal == goal && job.choosesRules moment.memo
  | _ => false

theorem chooses_iff {moment : Moment} {id : ExprId} {goal : Goal} : moment.chooses id goal = true ↔
    ∃ job, moment.job = .expression job ∧ job.expression = id ∧ job.goal = goal ∧
      job.choosesRules moment.memo = true := by
  rw [chooses]
  cases moment.job with
  | group job => simp
  | expression job => simp [and_assoc]
  | applyRule job => simp

/--
A rule is not to be applied to an expression: it is incompatible with the origin of the expression,
does not match it, or promises nothing for it.
-/
def Excludes (moment : Moment) (rules : Rulebook) (id : ExprId) (rule : RuleId) : Prop :=
  ∃ expression, moment.memo.expression? id = some expression ∧
    (rules.isCompatible rule expression.origin = false ∨
      ∃ held, rules.lookup rule = .ok held ∧
        (held.pattern.fits moment.memo id = .ok false ∨
          held.promise expression moment.memo moment.catalog = .ok .none))

end Moment

/-- The last step that chose the rules of an expression for a goal. The newest step comes first. -/
def lastChoice (history : List Moment) (id : ExprId) (goal : Goal) : Option Moment :=
  history.find? fun moment => moment.chooses id goal

theorem lastChoice_of_chooses {history : List Moment} {moment : Moment} {id : ExprId} {goal : Goal}
    (chooses : moment.chooses id goal = true) :
    lastChoice (moment :: history) id goal = some moment :=
  List.find?_cons_of_pos chooses

theorem lastChoice_of_idle {history : List Moment} {moment : Moment} {id : ExprId} {goal : Goal}
    (idle : ¬ moment.chooses id goal = true) :
    lastChoice (moment :: history) id goal = lastChoice history id goal :=
  List.find?_cons_of_neg idle

/-- A rule is marked on an expression, or was not to be applied at the last choice. -/
def Decided (rules : Rulebook) (history : List Moment) (memo : Memo) (rule : RuleId)
    (id : ExprId) : Prop :=
  memo.isApplied id rule = .ok true ∨
    ∃ goal moment, (rules.rulesFor goal).contains rule = true ∧
      lastChoice history id goal = some moment ∧ moment.Excludes rules id rule

section Decided

variable {rules : Rulebook} {catalog : Catalog} {mask : RuleSet} {history : List Moment}
  {memo : Memo}

theorem lasting_decided (rules : Rulebook) (history : List Moment) :
    Lasting (Decided rules history) where
  persists := fun grows => Or.imp_left grows.isApplied
  marked := .inl

theorem mem_phase (kinded : rules.Kinded) {goal : Goal} {rule : RuleId} :
    rule ∈ (Context.mk rules catalog mask).phase goal ↔
      (rules.rulesFor goal).contains rule = true ∧ mask.contains rule = true := by
  rw [Context.phase, RuleSet.mem_toList ((kinded.bounded goal).intersection mask),
    RuleSet.contains_intersection, Bool.and_eq_true]

/-- A step that chooses rules for one expression and goal leaves the other choices as they were. -/
theorem Decided.cons (kinded : rules.Kinded) {moment : Moment} {goal : Goal} {rule : RuleId}
    {id : ExprId} (decided : Decided rules history memo rule id)
    (serves : (rules.rulesFor goal).contains rule = true)
    (other : ¬ moment.chooses id goal = true) :
    Decided rules (moment :: history) memo rule id := by
  refine decided.imp_right ?_
  rintro ⟨wanted, last, wanted_serves, last_eq, excludes⟩
  rcases kinded.goal_unique serves wanted_serves with rfl
  exact ⟨goal, last, serves, (lastChoice_of_idle other).trans last_eq, excludes⟩

/-- A step that chooses no rules changes no decision. -/
theorem decided_cons {moment : Moment} (idle : ∀ id goal, ¬ moment.chooses id goal = true) :
    Decided rules (moment :: history) = Decided rules history := by
  funext memo rule id
  simp only [Decided, lastChoice_of_idle (idle id _)]

/-- The rules that a choice passes over are decided on with it. -/
theorem passesOver_decided (kinded : rules.Kinded) {job : ExpressionJob}
    (chooses : job.choosesRules memo = true) :
    PassesOver ⟨rules, catalog, mask⟩
      (Decided rules (⟨catalog, memo, .expression job⟩ :: history)) memo job := by
  intro rule expression rule_mem ripe candidate_eq
  have choice : (Moment.mk catalog memo (.expression job)).chooses job.expression job.goal = true :=
    Moment.chooses_iff.mpr ⟨job, rfl, rfl, rfl, chooses⟩
  rcases ExpressionJob.candidate_cases candidate_eq with ⟨-, applied | excluded⟩ |
    ⟨held, promise, absurd, -⟩
  · exact .inl applied
  · exact .inr ⟨job.goal, _, ((mem_phase kinded).mp rule_mem).1,
      lastChoice_of_chooses choice, expression, ripe.stored, excluded⟩
  · cases absurd

end Decided

/-! ## New choices -/

section Rechosen

variable {context : Context} {Done Later : Memo → RuleId → ExprId → Prop}

theorem Agenda.Stores.unique {agenda : Agenda} (consistent : agenda.Consistent) {request : Request}
    {first second : Job} (first_stored : agenda.Stores request first)
    (second_stored : agenda.Stores request second) : first = second := by
  rcases first_stored with ⟨id, entry, live, request_eq, stored⟩
  rcases second_stored with ⟨other, found, found_live, found_request, found_stored⟩
  rcases consistent.unique ⟨entry, live, request_eq⟩ ⟨found, found_live, found_request⟩ with rfl
  rw [live] at found_live
  cases found_live
  rw [stored] at found_stored
  exact Option.some.inj found_stored

/-- Only the rules of one expression for one goal may be open again. -/
def Reopens (context : Context) (Done Later : Memo → RuleId → ExprId → Prop) (memo : Memo)
    (target : ExprId) (wanted : Goal) : Prop :=
  ∀ {rule id goal}, rule ∈ context.phase goal → ¬(id = target ∧ goal = wanted) →
    Done memo rule id → Later memo rule id

variable {memo : Memo} {target : ExprId} {wanted : Goal}

theorem Reopens.served (reopens : Reopens context Done Later memo target wanted) {id : ExprId}
    {goal : Goal} (other : ¬(id = target ∧ goal = wanted))
    (served : Served context Done memo (.expression id goal)) :
    Served context Later memo (.expression id goal) := by
  rcases served with ⟨expression, ripe, done⟩
  exact ⟨expression, ripe, fun rule rule_mem => reopens rule_mem other (done rule rule_mem)⟩

theorem Truthful.reopened (truthful : Truthful context Done memo) {expression : Expression}
    (stored : memo.expression? target = some expression)
    (open_ : ¬ memo.Reached expression.group wanted)
    (reopens : Reopens context Done Later memo target wanted) : Truthful context Later memo := by
  refine ⟨truthful.built, truthful.implemented, ?_⟩
  intro id goal reached member member_mem
  refine reopens.served ?_ (truthful.served reached member member_mem)
  rintro ⟨rfl, rfl⟩
  rcases reached with ⟨group, found, done⟩
  rw [Memo.logicalIds, found] at member_mem
  rcases truthful.built.consistent.logical found member_mem with ⟨same, same_stored, rfl, -⟩
  rw [stored] at same_stored
  cases same_stored
  exact open_ ⟨group, found, done⟩

/--
The job of the group of an expression still awaits the job that chooses its rules, and that job has
not asked for rules before.
-/
theorem Orderly.reopened {root : GroupId} {goal : Goal} {agenda : Agenda} {job : ExpressionJob}
    (consistent : memo.Consistent) (orderly : Orderly context Done root goal memo agenda)
    (stores : agenda.Stores (.expression target wanted) (.expression job))
    (unscheduled : job.rulesScheduled = false) {expression : Expression}
    (stored : memo.expression? target = some expression)
    (awaited : agenda.Waits (.group expression.group wanted) (.expression target wanted))
    (reopens : Reopens context Done Later memo target wanted) :
    Orderly context Later root goal memo agenda := by
  refine ⟨orderly.consistent, orderly.rooted, orderly.finished, ?_, orderly.within,
    orderly.parents, orderly.asks, orderly.unreached⟩
  intro request state state_stored
  rcases orderly.jobs state_stored with ⟨request_eq, progressed⟩
  refine ⟨request_eq, ?_⟩
  rcases state with ⟨id, phase, exploreRequired, dispatched⟩ |
    ⟨id, phase, childrenScheduled, rulesScheduled⟩ | state
  · rcases progressed with ⟨bounded, members, explored⟩
    refine ⟨bounded, ?_, explored⟩
    intro member member_mem
    by_cases here : member = target ∧ phase = wanted
    · -- This is the job of the group of the expression, which awaits the choosing job.
      rcases here with ⟨rfl, rfl⟩
      have listed := List.mem_of_mem_take member_mem
      rw [Memo.logicalIds] at listed
      split at listed
      · rename_i group found
        rcases consistent.logical found listed with ⟨same, same_stored, rfl, -⟩
        rw [stored] at same_stored
        cases same_stored
        rw [← request_eq]
        exact .inr awaited
      · cases listed
    · exact (members member member_mem).imp_left (reopens.served here)
  · rcases progressed with ⟨found, found_stored, children, rules⟩
    refine ⟨found, found_stored, children, ?_⟩
    intro scheduled
    -- The choosing job itself has asked for no rules yet, so this is another one.
    have other : ¬(id = target ∧ phase = wanted) := by
      rintro ⟨rfl, rfl⟩
      have same := stores.unique orderly.consistent (request_eq ▸ state_stored)
      cases same
      exact Bool.false_ne_true (unscheduled.symm.trans scheduled)
    rcases rules scheduled with ⟨ripe, done⟩
    exact ⟨ripe, fun rule rule_mem =>
      (done rule rule_mem).imp_left (reopens rule_mem other)⟩
  · exact trivial

/-- An invariant run stays invariant when the job that is handed out chooses its rules anew. -/
theorem RunState.Invariant.reopened {root : GroupId} {goal : Goal} {state : RunState}
    (invariant : state.Invariant context (Truthful context Done) Done root goal)
    {cancelled : Bool} {taken : Agenda} {id : JobId} {job : ExpressionJob}
    (next_eq : state.agenda.next cancelled = (taken, some (id, .expression job)))
    (chooses : job.choosesRules state.progress.memo = true)
    (reopens : Reopens context Done Later state.progress.memo job.expression job.goal) :
    state.Invariant context (Truthful context Later) Later root goal := by
  rcases invariant with ⟨truthful, orderly⟩
  have ordered := orderly (Agenda.running_of_next next_eq)
  rcases Agenda.next_spec ordered.consistent next_eq with ⟨-, -, request, took⟩
  rcases (ordered.jobs took.stored).1 with rfl
  rcases took.stored with ⟨holder, entry, live, entry_request, -⟩
  rcases ordered.awaited_expression ⟨holder, entry, live, entry_request⟩ with
    ⟨expression, stored, -, awaited⟩
  have unscheduled : job.rulesScheduled = false := by
    rw [ExpressionJob.choosesRules, stored] at chooses
    cases scheduled : job.rulesScheduled with
    | false => rfl
    | true => simp [scheduled] at chooses
  refine ⟨truthful.reopened stored (ordered.unreached awaited) reopens, fun _ => ?_⟩
  exact ordered.reopened truthful.built.consistent took.stored unscheduled stored awaited reopens

end Rechosen

end Cascades
