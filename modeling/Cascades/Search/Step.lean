import Cascades.Memo.Insert
import Cascades.Rulebook
import Cascades.Search.Job

/-!
# Steps of jobs

A step either finishes its job or suspends it until requested work is done. Group jobs ask for jobs
for the expressions they have not asked for yet, until a look at the group finds none; then the
group has reached the goal. Implementation starts from an explored group. Expression jobs first
drive the child groups to the same goal and then ask for the applicable rules, the most promising
first.

All changes of the memo are made by rule jobs and by group jobs that reach their goal. Results that
were stored before a failure stay in the memo.
-/

namespace Cascades

/-- What a run reads: the rules, the catalog, and which rules are active. -/
structure Context where
  rules : Rulebook
  catalog : Catalog
  mask : RuleSet

/-- What the steps of a run change: the memo, the counts of the run, and whether it is cancelled. -/
structure Progress where
  memo : Memo
  executed : Nat
  rulesApplied : Nat
  expressionsAdded : Nat
  cancelled : Bool

namespace GroupJob

/-- The step of a group job in an existing group. -/
def stepIn (job : GroupJob) (group : Group) : Step × Bool :=
  if group.reached job.goal then (.done, false)
  else if job.goal = .implement ∧ ¬job.exploreRequired ∧ ¬group.explored then
    (.suspend (.group { job with exploreRequired := true }) [.group job.group .explore], false)
  else
    let job := { job with exploreRequired := job.exploreRequired || job.goal == Goal.implement }
    match group.logical.drop job.dispatched with
    | [] => (.done, true)
    | fresh =>
        (.suspend (.group { job with dispatched := job.dispatched + fresh.length })
          (fresh.map (.expression · job.goal)), false)

/-- Marks the group if the job has found nothing more to do. -/
def step (job : GroupJob) (memo : Memo) : Memo × Except Failure Step :=
  match memo.group? job.group with
  | none => (memo, .error (.corrupted (.unknownGroup job.group)))
  | some group =>
      match job.stepIn group with
      | (step, true) =>
          ({ memo with groups := memo.groups.setIfInBounds job.group (group.mark job.goal) },
            .ok step)
      | (step, false) => (memo, .ok step)

end GroupJob

namespace ExpressionJob

/-- The promise of a rule for an expression that it has yet to be applied to, if it may be. -/
def candidate (job : ExpressionJob) (context : Context) (memo : Memo) (expression : Expression)
    (id : RuleId) : Checked (Except Failure (Option (Promise × RuleId))) := do
  if ← memo.isApplied job.expression id then return .ok none
  if !context.rules.isCompatible id expression.origin then return .ok none
  match context.rules.lookup id with
  | .error failure => return .error failure
  | .ok rule =>
      if !(← rule.pattern.fits memo job.expression) then return .ok none
      match ← rule.promise expression memo context.catalog with
      | .none => return .ok none
      | promise => return .ok (some (promise, id))

/-- The candidates among a list of rules, in their order. -/
def candidates (job : ExpressionJob) (context : Context) (memo : Memo) (expression : Expression) :
    List RuleId → Checked (Except Failure (List (Promise × RuleId)))
  | [] => return .ok []
  | id :: rest => do
      match ← job.candidate context memo expression id with
      | .error failure => return .error failure
      | .ok found =>
          match ← job.candidates context memo expression rest with
          | .error failure => return .error failure
          | .ok others => return .ok (found.toList ++ others)

/-- Adds a candidate in front of the first that promises no more. -/
def insertByPromise (candidate : Promise × RuleId) :
    List (Promise × RuleId) → List (Promise × RuleId)
  | [] => [candidate]
  | first :: rest =>
      if first.1.rank ≤ candidate.1.rank then candidate :: first :: rest
      else first :: insertByPromise candidate rest

/-- The rules to apply, the most promising first, equally promising ones in the given order. -/
def byPromise (candidates : List (Promise × RuleId)) : List RuleId :=
  (candidates.foldr insertByPromise []).map Prod.snd

/-- The rules to apply to an expression for the goal of the job. -/
def applicableRules (job : ExpressionJob) (context : Context) (memo : Memo)
    (expression : Expression) : Checked (Except Failure (List RuleId)) := do
  let phase := (context.rules.rulesFor job.goal).intersection context.mask
  return (← job.candidates context memo expression phase.toList).map byPromise

/-- The requests for the child groups, each of them once. -/
def childRequests (goal : Goal) (children : List GroupId) : List Request :=
  children.foldl (fun requests child =>
    if requests.contains (.group child goal) then requests
    else requests ++ [.group child goal]) []

/-- The part of a step that asks for rules. -/
def scheduleRules (job : ExpressionJob) (context : Context) (memo : Memo)
    (expression : Expression) : Checked (Except Failure Step) := do
  if job.rulesScheduled then return .ok .done
  match job.goal, memo.group? expression.group with
  | .implement, none => return .error (.corrupted (.unknownGroup expression.group))
  | .implement, some ⟨_, _, false, _⟩ =>
      return .ok (.suspend (.expression job) [.group expression.group .explore])
  | _, _ =>
      match ← job.applicableRules context memo expression with
      | .error failure => return .error failure
      | .ok [] => return .ok .done
      | .ok rules =>
          return .ok (.suspend (.expression { job with rulesScheduled := true })
            (rules.map (.applyRule · job.expression)))

/-- A step of the job: it asks for its children first, and then for rules. -/
def step (job : ExpressionJob) (context : Context) (memo : Memo) :
    Checked (Except Failure Step) :=
  match memo.expression? job.expression with
  | none => return .error (.corrupted (.unknownExpression job.expression))
  | some expression =>
      let scheduled := { job with childrenScheduled := true }
      match job.childrenScheduled, childRequests job.goal expression.children with
      | true, _ | false, [] => scheduled.scheduleRules context memo expression
      | false, requests => return .ok (.suspend (.expression scheduled) requests)

end ExpressionJob

namespace RuleJob

/-- The failure of a result that names a group which does not exist, if it does. -/
def checkGroups (rule : RuleId) (memo : Memo) (groups : List GroupId) : Except Failure Unit :=
  match groups.find? fun id => !memo.holdsGroup id with
  | some id => .error (.corrupted (.unknownReference rule id))
  | none => .ok ()

mutual

/-- Stores a sub-plan, its inputs first, and gives the group that holds it. -/
def store (rule : RuleId) (memo : Memo) : Subplan → Memo × Except Failure GroupId
  | .group id => (memo, (checkGroups rule memo [id]).map fun _ => id)
  | .fresh operator children =>
      match storeAll rule memo children with
      | (memo, .error failure) => (memo, .error failure)
      | (memo, .ok groups) =>
          let (memo, group, _) := memo.add operator groups (some rule)
          (memo, .ok group)

/-- Stores sub-plans one after the other, up to the first failure. -/
def storeAll (rule : RuleId) (memo : Memo) :
    List Subplan → Memo × Except Failure (List GroupId)
  | [] => (memo, .ok [])
  | child :: rest =>
      match store rule memo child with
      | (memo, .error failure) => (memo, .error failure)
      | (memo, .ok group) =>
          match storeAll rule memo rest with
          | (memo, .error failure) => (memo, .error failure)
          | (memo, .ok groups) => (memo, .ok (group :: groups))

end

/-- The operator and the child groups of a result, after its sub-plans have been stored. -/
def prepare (rule : RuleId) (memo : Memo) :
    RuleResult → Memo × Except Failure (Operator × List GroupId)
  | .substitution operator children =>
      (memo, (checkGroups rule memo children).map fun _ => (operator, children))
  | .nested operator children =>
      match storeAll rule memo children with
      | (memo, outcome) => (memo, outcome.map fun groups => (operator, groups))

/-- Stores results in a group, up to the first failure, and counts those that are new to it. -/
def insertAll (rule : RuleId) (group : GroupId) (memo : Memo) (added : Nat) :
    List RuleResult → Checked (Memo × Nat × Except Failure Unit)
  | [] => return (memo, added, .ok ())
  | result :: rest =>
      match prepare rule memo result with
      | (memo, .error failure) => return (memo, added, .error failure)
      | (memo, .ok (operator, children)) => do
          let (memo, insertion) ← memo.addTo group operator children (some rule)
          insertAll rule group memo (if insertion.isNew then added + 1 else added) rest

/-- Applies the rule and stores its results. -/
def run (job : RuleJob) (context : Context) (rule : Rule) (expression : Expression)
    (progress : Progress) : Checked (Progress × Except Failure Step) := do
  let application ← rule.apply expression progress.memo context.catalog
  let progress :=
    { progress with
      rulesApplied := progress.rulesApplied + 1
      cancelled := progress.cancelled || application.cancels }
  match application.outcome with
  | .error (.recoverable _) => return (progress, .ok .done)
  | .error (.fatal message) =>
      return (progress, .error (.ruleFailed rule.name expression.group message))
  | .ok results =>
      let (memo, added, outcome) ←
        insertAll job.rule expression.group progress.memo 0 results
      return ({ progress with memo, expressionsAdded := progress.expressionsAdded + added },
        outcome.map fun _ => .done)

/-- A rule that has already been applied to the expression is not applied again. -/
def step (job : RuleJob) (context : Context) (progress : Progress) :
    Checked (Progress × Except Failure Step) := do
  let (memo, isNew) ← progress.memo.markApplied job.expression job.rule
  let progress := { progress with memo }
  if !isNew then return (progress, .ok .done)
  match context.rules.lookup job.rule with
  | .error failure => return (progress, .error failure)
  | .ok rule => job.run context rule (← memo.expression job.expression) progress

end RuleJob

/-- One step of a job. -/
def Job.step (job : Job) (context : Context) (progress : Progress) :
    Checked (Progress × Except Failure Step) :=
  let progress := { progress with executed := progress.executed + 1 }
  match job with
  | .group job =>
      let (memo, outcome) := job.step progress.memo
      return ({ progress with memo }, outcome)
  | .expression job => do
      return (progress, ← job.step context progress.memo)
  | .applyRule job => job.step context progress

end Cascades
