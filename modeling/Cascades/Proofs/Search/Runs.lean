import Cascades.Proofs.Search.Completion
import Cascades.Proofs.Search.Discipline
import Cascades.Proofs.Search.Suspension
import Cascades.Search.Run

/-!
# Runs

Between two steps of a run that has not failed, every stored job has achieved or still awaits what
it asked for, every live job but the first one was asked for by a job that waits for it, and a group
whose job waits has not been driven to its goal yet. A run whose root job is done has therefore
driven its root to the goal. Whatever becomes of a run, the memo keeps its invariant.
-/

namespace Cascades

/-- A request that a run for a goal can make. -/
def Request.Within (top : Goal) : Request → Prop
  | .group _ goal => goal.Within top
  | .expression _ goal => goal.Within top
  | .applyRule _ _ => True

/-- A run between two steps, as long as it has not failed. -/
structure Orderly (context : Context) (Done : Memo → RuleId → ExprId → Prop) (root : GroupId)
    (goal : Goal) (memo : Memo) (agenda : Agenda) : Prop where
  consistent : agenda.Consistent
  rooted : agenda.Rooted (.group root goal)
  finished : agenda.finished = true → memo.Reached root goal
  jobs : ∀ {request job}, agenda.Stores request job →
    job.request = request ∧ Progressed context Done memo (agenda.Waits request) job
  within : ∀ {request}, agenda.Live request → request.Within goal
  parents : ∀ {request}, agenda.Live request → request = .group root goal ∨
    ∃ parent, agenda.Waits parent request
  asks : ∀ {waiter server}, agenda.Waits waiter server → Asks context memo waiter server
  unreached : ∀ {id goal server}, agenda.Waits (.group id goal) server → ¬ memo.Reached id goal

/-- What holds of a run between two steps. -/
structure RunState.Invariant (context : Context) (Kept : Memo → Prop)
    (Done : Memo → RuleId → ExprId → Prop) (root : GroupId) (goal : Goal) (state : RunState) :
    Prop where
  kept : Kept state.progress.memo
  orderly : state.agenda.failure = none →
    Orderly context Done root goal state.progress.memo state.agenda

section Runs

variable {context : Context} {top : Goal} {Kept : Memo → Prop} {Done : Memo → RuleId → ExprId → Prop}

theorem Asks.mono {memo larger : Memo} (grows : memo.Grows larger) {parent request : Request}
    (asks : Asks context memo parent request) : Asks context larger parent request := by
  cases asks with
  | exploration id => exact .exploration id
  | @member id goal expression stored logical =>
      rcases grows.expressions stored with ⟨applied, larger_stored, -⟩
      exact @Asks.member context larger id goal { expression with applied } larger_stored logical
  | @child id goal expression child stored child_mem =>
      rcases grows.expressions stored with ⟨applied, larger_stored, -⟩
      exact @Asks.child context larger id goal { expression with applied } child larger_stored
        child_mem
  | @ownGroup id expression stored =>
      rcases grows.expressions stored with ⟨applied, larger_stored, -⟩
      exact @Asks.ownGroup context larger id { expression with applied } larger_stored
  | rule rule_mem ripe matched =>
      rcases ripe.mono grows with ⟨applied, larger_ripe⟩
      exact .rule rule_mem larger_ripe (matched.mono grows)

/-- Whatever a job of a run asks for is work for the goal of the run. -/
theorem Asks.within {memo : Memo} {parent request : Request}
    (asks : Asks context memo parent request) (within : parent.Within top) :
    request.Within top := by
  cases asks with
  | exploration id => exact fun implement => by cases implement
  | member => exact within
  | child => exact within
  | ownGroup => exact fun implement => by cases implement
  | rule => trivial

/-- A step achieves what its job was asked for. -/
theorem Job.step_achieves (stable : Stable context top Kept Done) {progress after : Progress}
    {job : Job} {outcome : Except Failure Step} (kept : Kept progress.memo)
    (progressed : Progressed context Done progress.memo (fun _ => False) job)
    (passed_over : ∀ {expressionJob}, job = .expression expressionJob →
      expressionJob.choosesRules progress.memo = true →
        PassesOver context Done progress.memo expressionJob)
    (asked : ∀ rule id, job.request = .applyRule rule id → ∃ goal expression,
      goal.Within top ∧ rule ∈ context.phase goal ∧ progress.memo.Ripe id goal expression ∧
        ¬ progress.memo.Reached expression.group goal ∧ context.Matched progress.memo rule id)
    (step_eq : job.step context progress = .ok (after, outcome)) :
    Achieves context Kept Done progress.memo after.memo job.request outcome := by
  cases job with
  | group job =>
      cases step_eq
      exact GroupJob.step_achieves stable kept progressed
  | expression job =>
      rw [Job.step] at step_eq
      simp only [bind, Except.bind, pure, Except.pure] at step_eq
      split at step_eq
      · cases step_eq
      · rename_i settled settled_eq
        cases step_eq
        exact achieves_of_settles kept
          (ExpressionJob.step_settles stable kept progressed (passed_over rfl) settled_eq)
  | applyRule job =>
      rcases asked job.rule job.expression rfl with
        ⟨goal, expression, within, rule_mem, ripe, unreached, matched⟩
      let started : Progress := { progress with executed := progress.executed + 1 }
      have rule_step : job.step context started = .ok (after, outcome) := step_eq
      have achieved := @Stable.applied _ _ _ _ stable goal job.rule job.expression expression
        outcome started after kept within rule_mem ripe unreached matched rule_step
      rcases achieved with ⟨after_kept, grows, persists, flags, done⟩
      refine ⟨after_kept, grows, persists, fun reached => .inl (flags reached), ?_⟩
      cases outcome with
      | error failure => trivial
      | ok step =>
          rcases done step rfl with ⟨rfl, rule_done⟩
          exact rule_done

section Advance

variable {root : GroupId} {goal : Goal} {memo after : Memo} {agenda taken : Agenda} {id : JobId}
  {request : Request} {job : Job}

namespace Orderly

/-- The job of an expression was asked for by the job of its group. -/
theorem awaited_expression (orderly : Orderly context Done root goal memo agenda) {target : ExprId}
    {wanted : Goal} (live : agenda.Live (.expression target wanted)) :
    ∃ expression, memo.expression? target = some expression ∧
      expression.operator.isLogical = true ∧
        agenda.Waits (.group expression.group wanted) (.expression target wanted) := by
  rcases orderly.parents live with same | ⟨parent, waits⟩
  · cases same
  · cases orderly.asks waits with
    | member stored logical => exact ⟨_, stored, logical, waits⟩

variable (orderly : Orderly context Done root goal memo agenda)
  (took : agenda.Took id request job taken)
include took

theorem not_waits {server : Request} : ¬ agenda.Waits request server := by
  rw [← took.waits]
  exact took.consistent.not_waits took.handedOut

include orderly

/-- A job that is handed out awaits nothing. -/
theorem progressed :
    job.request = request ∧ Progressed context Done memo (fun _ => False) job := by
  rcases orderly.jobs took.stored with ⟨request_eq, progressed⟩
  refine ⟨request_eq, progressed.mono (.refl memo) (fun done => done) ?_⟩
  exact fun server waits => (not_waits took waits).elim

/-- A rule job was asked for by the job of an expression whose group is still being driven. -/
theorem asked {rule : RuleId} {target : ExprId} (request_eq : request = .applyRule rule target) :
    ∃ wanted expression, wanted.Within goal ∧ rule ∈ context.phase wanted ∧
      memo.Ripe target wanted expression ∧ ¬ memo.Reached expression.group wanted ∧
        context.Matched memo rule target := by
  subst request_eq
  rcases took.stored with ⟨holder, entry, live, entry_request, -⟩
  rcases orderly.parents ⟨holder, entry, live, entry_request⟩ with same | ⟨parent, waits⟩
  · cases same
  · cases orderly.asks waits with
    | @rule _ _ wanted expression rule_mem ripe matched =>
        rcases waits with ⟨parent_id, parent_entry, parent_live, parent_request, -⟩
        have live : agenda.Live (.expression target wanted) :=
          ⟨parent_id, parent_entry, parent_live, parent_request⟩
        rcases orderly.awaited_expression live with ⟨same, stored, -, waits⟩
        cases ripe.stored.symm.trans stored
        exact ⟨wanted, expression, orderly.within live, rule_mem, ripe, orderly.unreached waits,
          matched⟩

/-- The run goes on after a job is done. -/
theorem complete (achieves : Achieves context Kept Done memo after request (.ok .done)) :
    Orderly context Done root goal after (taken.complete id) := by
  have completed := Agenda.complete_spec took.consistent took.handedOut
  have served : Served context Done after request := achieves.settles
  refine ⟨completed.consistent, completed.rooted (took.rooted orderly.rooted), ?_, ?_, ?_, ?_, ?_,
    ?_⟩
  · intro finished
    rcases completed.finished (took.rooted orderly.rooted) finished with before | rfl
    · rw [took.finished] at before
      exact achieves.grows.reached (orderly.finished before)
    · exact served
  · intro other state stores
    rcases took.stores (completed.stores stores) with ⟨-, before⟩
    rcases orderly.jobs before with ⟨request_eq, progressed⟩
    refine ⟨request_eq, progressed.mono achieves.grows achieves.persists ?_⟩
    intro server waits
    by_cases here : server = request
    · exact .inr (here ▸ served)
    · exact .inl (completed.waits.mpr ⟨took.waits.mpr waits, here⟩)
  · exact fun live => orderly.within (took.live.mp (completed.live live).1)
  · intro other live
    rcases completed.live live with ⟨before, different⟩
    refine (orderly.parents (took.live.mp before)).imp_right ?_
    rintro ⟨parent, waits⟩
    exact ⟨parent, completed.waits.mpr ⟨took.waits.mpr waits, different⟩⟩
  · intro waiter server waits
    exact (orderly.asks (took.waits.mp (completed.waits.mp waits).1)).mono achieves.grows
  · intro group wanted server waits reached
    have before := took.waits.mp (completed.waits.mp waits).1
    rcases achieves.flags reached with earlier | rfl
    · exact orderly.unreached before earlier
    · exact not_waits took before

/-- The run goes on after a job has asked for more, unless that is refused. -/
theorem suspend {requests : List Request} {next : Job}
    (settles : Settles context Done memo after request (.ok (.suspend next requests))) :
    (taken.suspend id next requests).failure ≠ none ∨
      Orderly context Done root goal after (taken.suspend id next requests) := by
  rcases settles with ⟨rfl, request_eq, progressed, asks, open_⟩
  refine (Agenda.suspend_spec took.consistent took.handedOut).imp_right ?_
  intro suspended
  refine ⟨suspended.consistent, suspended.rooted (took.rooted orderly.rooted), ?_, ?_, ?_, ?_, ?_,
    ?_⟩
  · rw [suspended.finished, took.finished]
    exact orderly.finished
  · intro other state stores
    rcases suspended.stores stores with ⟨rfl, rfl⟩ | ⟨-, before | ⟨asked, -, rfl⟩⟩
    · refine ⟨request_eq, progressed.mono (.refl _) (fun done => done) ?_⟩
      exact fun server server_mem => .inl (suspended.waits.mpr (.inr ⟨rfl, server_mem⟩))
    · rcases orderly.jobs (took.stores before).2 with ⟨same, before_progressed⟩
      refine ⟨same, before_progressed.mono (.refl _) (fun done => done) ?_⟩
      exact fun server waits => .inl (suspended.waits.mpr (.inl (took.waits.mpr waits)))
    · refine ⟨Request.request_job other, ?_⟩
      cases other with
      | group group wanted => exact ⟨Nat.zero_le _, by simp, by simp⟩
      | expression target wanted =>
          rcases asks _ asked with _ | stored
          exact ⟨_, stored, by simp, by simp⟩
      | applyRule rule target => trivial
  · intro other live
    rcases suspended.live live with before | asked
    · exact orderly.within (took.live.mp before)
    · rcases took.stored with ⟨holder, entry, holder_live, entry_request, -⟩
      exact (asks other asked).within (orderly.within ⟨holder, entry, holder_live, entry_request⟩)
  · intro other live
    rcases suspended.live live with before | asked
    · refine (orderly.parents (took.live.mp before)).imp_right ?_
      rintro ⟨parent, waits⟩
      exact ⟨parent, suspended.waits.mpr (.inl (took.waits.mpr waits))⟩
    · exact .inr ⟨request, suspended.waits.mpr (.inr ⟨rfl, asked⟩)⟩
  · intro waiter server waits
    rcases suspended.waits.mp waits with before | ⟨rfl, asked⟩
    · exact orderly.asks (took.waits.mp before)
    · exact asks server asked
  · intro group wanted server waits
    rcases suspended.waits.mp waits with before | ⟨same, -⟩
    · exact orderly.unreached (took.waits.mp before)
    · exact open_ group wanted same.symm

end Orderly

end Advance

namespace RunState

variable {root : GroupId} {goal : Goal} {state after : RunState}

/-- The job that is handed out achieves what it was asked for. -/
theorem Invariant.achieves (stable : Stable context goal Kept Done)
    (invariant : state.Invariant context Kept Done root goal) {cancelled : Bool} {taken : Agenda}
    {id : JobId} {job : Job} {progress : Progress} {outcome : Except Failure Step}
    (next_eq : state.agenda.next cancelled = (taken, some (id, job)))
    (passed_over : ∀ {choosing}, job = .expression choosing →
      choosing.choosesRules state.progress.memo = true →
        PassesOver context Done state.progress.memo choosing)
    (step_eq : job.step context state.progress = .ok (progress, outcome)) :
    state.agenda.Took id job.request job taken ∧
      Achieves context Kept Done state.progress.memo progress.memo job.request outcome := by
  have ordered := invariant.orderly (Agenda.running_of_next next_eq)
  rcases Agenda.next_spec ordered.consistent next_eq with ⟨-, -, request, took⟩
  rcases ordered.progressed took with ⟨rfl, progressed⟩
  exact ⟨took, Job.step_achieves stable invariant.kept progressed passed_over
    (fun rule target => ordered.asked took) step_eq⟩

/-- A step keeps the invariant of a run if it passes over no rule that has to be applied. -/
theorem Invariant.advance_of (stable : Stable context goal Kept Done)
    (invariant : state.Invariant context Kept Done root goal) {record : Option StepRecord}
    (passed_over : ∀ {taken id job}, state.agenda.next state.progress.cancelled =
      (taken, some (id, .expression job)) → job.choosesRules state.progress.memo = true →
        PassesOver context Done state.progress.memo job)
    (advance_eq : state.advance context = .ok (after, record)) :
    after.Invariant context Kept Done root goal ∧
      state.progress.memo.Grows after.progress.memo := by
  rcases invariant with ⟨kept, orderly⟩
  rw [RunState.advance] at advance_eq
  cases failed : state.agenda.failure with
  | some failure =>
      rw [Agenda.next_of_failure failed] at advance_eq
      cases advance_eq
      exact ⟨⟨kept, orderly⟩, .refl _⟩
  | none =>
      have ordered := orderly failed
      cases next_eq : state.agenda.next state.progress.cancelled with
      | mk taken handed =>
          rw [next_eq] at advance_eq
          cases handed with
          | none =>
              cases advance_eq
              refine ⟨⟨kept, ?_⟩, .refl _⟩
              intro running
              rcases Agenda.next_none ordered.consistent next_eq with same | failed_now
              · exact same ▸ ordered
              · exact (failed_now running).elim
          | some pair =>
              rcases pair with ⟨id, job⟩
              simp only [bind, Except.bind, pure, Except.pure] at advance_eq
              split at advance_eq
              · cases advance_eq
              · rename_i stepped step_eq
                rcases stepped with ⟨progress, outcome⟩
                cases advance_eq
                rcases Invariant.achieves stable ⟨kept, orderly⟩ next_eq
                  (fun same => passed_over (same ▸ next_eq)) step_eq with ⟨took, achieves⟩
                have settled_took := took.outstanding (taken.outstanding - 1)
                refine ⟨⟨achieves.kept, ?_⟩, achieves.grows⟩
                intro running
                cases outcome with
                | error failure =>
                    rw [Agenda.settle] at running
                    exact (Agenda.fail_ne_none _ failure running).elim
                | ok step =>
                    cases step with
                    | done => exact ordered.complete settled_took achieves
                    | suspend next requests =>
                        rcases ordered.suspend settled_took achieves.settles with
                          failed_now | going_on
                        · exact (failed_now running).elim
                        · exact going_on

/-- A step keeps the invariant of a run. -/
theorem Invariant.advance (discipline : Discipline context goal Kept Done)
    (invariant : state.Invariant context Kept Done root goal) {record : Option StepRecord}
    (advance_eq : state.advance context = .ok (after, record)) :
    after.Invariant context Kept Done root goal ∧
      state.progress.memo.Grows after.progress.memo :=
  invariant.advance_of discipline.toStable
    (fun _ _ => discipline.passed_over invariant.kept) advance_eq

/-- What every step keeps is kept by a run. -/
theorem drive_keeps {Holds : RunState → Prop}
    (step : ∀ {before next : RunState} {record : Option StepRecord}, Holds before →
      before.advance context = .ok (next, record) → Holds next)
    (holds : Holds state) {steps : Nat} {records : List StepRecord}
    (drive_eq : state.drive context steps = .ok (after, records)) : Holds after := by
  induction steps generalizing state records with
  | zero =>
      cases drive_eq
      exact holds
  | succ steps ih =>
      rw [RunState.drive] at drive_eq
      simp only [bind, Except.bind, pure, Except.pure] at drive_eq
      split at drive_eq
      · cases drive_eq
      · rename_i advanced advance_eq
        rcases advanced with ⟨next, record⟩
        have next_holds := step holds advance_eq
        cases record with
        | none =>
            cases drive_eq
            exact next_holds
        | some record =>
            dsimp only at drive_eq
            split at drive_eq
            · cases drive_eq
            · rename_i driven rest_eq
              rcases driven with ⟨last, others⟩
              cases drive_eq
              exact ih next_holds rest_eq

/-- A run keeps its invariant, whatever becomes of it. -/
theorem Invariant.drive (discipline : Discipline context goal Kept Done)
    (invariant : state.Invariant context Kept Done root goal) {steps : Nat}
    {records : List StepRecord} (drive_eq : state.drive context steps = .ok (after, records)) :
    after.Invariant context Kept Done root goal ∧
      state.progress.memo.Grows after.progress.memo := by
  let Holds (last : RunState) : Prop :=
    last.Invariant context Kept Done root goal ∧ state.progress.memo.Grows last.progress.memo
  have holds : Holds state := ⟨invariant, .refl _⟩
  refine drive_keeps (fun {before next record} holds advance_eq => ?_) holds drive_eq
  rcases Invariant.advance discipline holds.1 advance_eq with ⟨next_invariant, grows⟩
  exact ⟨next_invariant, holds.2.trans grows⟩

/-- A run that ends well has driven its root to the goal. -/
theorem Invariant.finish (invariant : state.Invariant context Kept Done root goal)
    (finished : state.agenda.finish = .ok ()) : state.progress.memo.Reached root goal := by
  rw [Agenda.finish] at finished
  split at finished
  · cases finished
  · rename_i running
    split at finished
    · rename_i isFinished
      exact (invariant.orderly running).finished isFinished
    · cases finished

/-- From now on, the memo is compared with what it is now. -/
theorem Invariant.since (invariant : state.Invariant context Kept Done root goal) :
    state.Invariant context (fun memo => Kept memo ∧ state.progress.memo.Extends memo) Done root
      goal :=
  ⟨⟨invariant.kept, .refl _⟩, invariant.orderly⟩

/-- The invariant holds when the root job has been created. -/
theorem Invariant.seeded {progress : Progress} {agenda : Agenda} {limit : Nat}
    (kept : Kept progress.memo)
    (seeded : (Agenda.empty limit).seed (.group root goal) = .ok agenda) :
    RunState.Invariant context Kept Done root goal ⟨progress, agenda⟩ := by
  rcases Agenda.seed_spec seeded with
    ⟨consistent, rooted, unfinished, -, stores, live, waits⟩
  refine ⟨kept, fun _ => ⟨consistent, rooted, ?_, ?_, ?_, ?_, ?_, ?_⟩⟩
  · intro finished
    rw [unfinished] at finished
    cases finished
  · intro request job stored
    rcases stores stored with ⟨rfl, rfl⟩
    exact ⟨rfl, Nat.zero_le _, by simp, by simp⟩
  · intro request is_live
    rw [live is_live]
    exact fun implement => implement
  · exact fun is_live => .inl (live is_live)
  · exact fun is_waiting => (waits is_waiting).elim
  · exact fun is_waiting => (waits is_waiting).elim

end RunState

end Runs

end Cascades
