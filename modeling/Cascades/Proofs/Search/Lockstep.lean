import Cascades.Proofs.Search.Passing
import Cascades.Proofs.Search.Roots

/-!
# Runs that mirror each other

If the agenda of a run mirrors that of a smaller run and both have the same memo, they take the same
steps, because what a job does depends neither on its number nor on the counts of its run. So a run
that ends well comes to the step that completes the root job of the smaller one, with which the
smaller one ends.
-/

namespace Cascades

open Relation

/-! ## Counting on -/

/-- The progress of a run that counts on from the counts of an earlier one. -/
def Progress.after (progress : Progress) (earlier : RunCounts) : Progress :=
  { progress with
    executed := earlier.jobsExecuted + progress.executed
    rulesApplied := earlier.rulesApplied + progress.rulesApplied
    expressionsAdded := earlier.expressionsAdded + progress.expressionsAdded }

section After

variable {context : Context} {progress : Progress} (earlier : RunCounts)

theorem RuleJob.run_after (job : RuleJob) (rule : Rule) (expression : Expression) :
    job.run context rule expression (progress.after earlier) =
      (job.run context rule expression progress).map fun (next, outcome) =>
        (next.after earlier, outcome) := by
  rw [run, run, show (progress.after earlier).memo = progress.memo from rfl]
  simp only [bind, Except.bind, pure, Except.pure]
  cases rule.apply expression progress.memo context.catalog with
  | error reference => rfl
  | ok application =>
      rcases application with ⟨cancels, (_ | _) | results⟩
      · rfl
      · rfl
      · dsimp only
        cases insertAll job.rule expression.group progress.memo 0 results with
        | error reference => rfl
        | ok inserted => simp only [Except.map, Progress.after, Nat.add_assoc]

theorem RuleJob.step_after (job : RuleJob) :
    job.step context (progress.after earlier) =
      (job.step context progress).map fun (next, outcome) => (next.after earlier, outcome) := by
  rw [step, step, show (progress.after earlier).memo = progress.memo from rfl]
  simp only [bind, Except.bind, pure, Except.pure]
  cases progress.memo.markApplied job.expression job.rule with
  | error reference => rfl
  | ok marked =>
      rcases marked with ⟨memo, _ | _⟩
      · rfl
      · simp only [Bool.not_true, Bool.false_eq_true, if_false]
        cases context.rules.lookup job.rule with
        | error failure => rfl
        | ok rule =>
            dsimp only
            cases memo.expression job.expression with
            | error reference => rfl
            | ok expression =>
                exact @run_after context { progress with memo } earlier job rule expression

/-- What a step does does not depend on the counts. -/
theorem Job.step_after (job : Job) :
    job.step context (progress.after earlier) =
      (job.step context progress).map fun (next, outcome) => (next.after earlier, outcome) := by
  cases job with
  | group job => rfl
  | expression job =>
      rw [step, step, show (progress.after earlier).memo = progress.memo from rfl]
      simp only [bind, Except.bind, pure, Except.pure]
      cases job.step context progress.memo with
      | error reference => rfl
      | ok outcome => rfl
  | applyRule job =>
      let started : Progress := { progress with executed := progress.executed + 1 }
      exact @RuleJob.step_after context started earlier job

end After

namespace RunState

/-- A run does what a smaller one does, after the counts of an earlier one. -/
structure Mirrors (embedding : Embedding) (goal : Goal) (earlier : RunCounts)
    (small large : RunState) : Prop where
  agenda : small.agenda.Mirrors embedding goal large.agenda
  progress : large.progress = small.progress.after earlier

section Mirrors

variable {context : Context} {embedding : Embedding} {goal : Goal} {earlier : RunCounts}
  {small large next last : RunState} {record : StepRecord} {root : GroupId} {steps : Nat}
  {records : List StepRecord} {outcome : Checked (RunState × List StepRecord)}

/-- The smaller run takes the same step. -/
theorem Mirrors.advance (mirrors : small.Mirrors embedding goal earlier large)
    (advance_eq : large.advance context = .ok (next, some record)) :
    ∃ taken large_taken id progress,
      small.agenda.next small.progress.cancelled = (taken, some (id, record.job)) ∧
        record.job.step context small.progress = .ok (progress, record.outcome) ∧
          taken.Mirrors embedding goal large_taken ∧
            next = ⟨progress.after earlier,
              large_taken.settle (embedding.place id) record.outcome⟩ := by
  rw [RunState.advance, mirrors.progress] at advance_eq
  cases next_eq : large.agenda.next (small.progress.after earlier).cancelled with
  | mk large_taken handed =>
      rw [next_eq] at advance_eq
      cases handed with
      | none => cases advance_eq
      | some pair =>
          rcases mirrors.agenda.next next_eq with ⟨taken, id, small_next, place_eq, taken_mirrors⟩
          rcases pair with ⟨place, job⟩
          dsimp only at place_eq small_next
          subst place_eq
          simp only [Job.step_after, bind, Except.bind, pure, Except.pure] at advance_eq
          cases step_eq : job.step context small.progress with
          | error reference =>
              rw [step_eq] at advance_eq
              cases advance_eq
          | ok stepped =>
              rw [step_eq] at advance_eq
              cases advance_eq
              exact ⟨taken, large_taken, id, stepped.1, small_next, step_eq, taken_mirrors, rfl⟩

/-- Whatever a job of a run asks for is work for the goal of the run. -/
theorem Invariant.within {Kept : Memo → Prop} {Done : Memo → RuleId → ExprId → Prop}
    {state : RunState} (discipline : Discipline context goal Kept Done)
    (invariant : state.Invariant context Kept Done root goal) {cancelled : Bool} {taken : Agenda}
    {id : JobId} {job asking : Job} {progress : Progress} {requests : List Request}
    (next_eq : state.agenda.next cancelled = (taken, some (id, job)))
    (step_eq : job.step context state.progress = .ok (progress, .ok (.suspend asking requests))) :
    ∀ request ∈ requests, request.Within goal := by
  have ordered := invariant.orderly (Agenda.running_of_next next_eq)
  rcases invariant.achieves discipline.toStable next_eq
    (fun _ => fun _ => discipline.passed_over invariant.kept) step_eq with ⟨took, achieves⟩
  rcases achieves.settles with ⟨-, -, -, asks, -⟩
  rcases took.stored with ⟨holder, entry, live, request_eq, -⟩
  intro request request_mem
  exact (asks request request_mem).within (ordered.within ⟨holder, entry, live, request_eq⟩)

/-- An agenda that has neither finished nor failed does not end well by itself. -/
theorem finished_of_rest {state : RunState} (advance_eq : state.advance context = .ok (last, none))
    (succeeded : last.agenda.finish = .ok ()) : state.agenda.finished = true := by
  have take_finished (agenda : Agenda) (ready : List JobId) (taken : Agenda)
      (take_eq : agenda.take ready = (taken, none)) : taken.finished = agenda.finished := by
    induction ready with
    | nil =>
        rw [Agenda.take] at take_eq
        split at take_eq <;> cases take_eq <;> rfl
    | cons first rest ih =>
        rw [Agenda.take] at take_eq
        split at take_eq
        · cases take_eq
        · exact ih take_eq
  have last_finished : last.agenda.finished = true := by
    rw [Agenda.finish] at succeeded
    split at succeeded
    · cases succeeded
    · by_contra unfinished
      rw [if_neg unfinished] at succeeded
      cases succeeded
  rw [RunState.advance] at advance_eq
  split at advance_eq
  · rename_i agenda next_eq
    cases advance_eq
    rw [Agenda.next] at next_eq
    split at next_eq
    · cases next_eq
      exact last_finished
    · split at next_eq
      · cases next_eq
        exact last_finished
      · exact (take_finished _ _ _ next_eq).symm.trans last_finished
  · simp only [bind, Except.bind, pure, Except.pure] at advance_eq
    split at advance_eq <;> cases advance_eq

/--
Two runs come to a step that completes the root job of the smaller one, after which the larger one
goes on until it comes to rest.
-/
structure Closing (context : Context) (embedding : Embedding) (goal : Goal) (earlier : RunCounts)
    (last small large before : RunState) (taken large_taken : Agenda) (job : Job)
    (progress : Progress) : Prop where
  passed : ReflTransGen (Steps context) small before
  next : before.agenda.next before.progress.cancelled = (taken, some (0, job))
  step : job.step context before.progress = .ok (progress, .ok .done)
  mirrors : taken.Mirrors embedding goal large_taken
  large_passed : ReflTransGen (Steps context) large
    ⟨progress.after earlier, large_taken.settle (embedding.place 0) (.ok .done)⟩
  stops : ∃ steps records, StopsIn context steps
    ⟨progress.after earlier, large_taken.settle (embedding.place 0) (.ok .done)⟩ (.ok (last, records))

theorem Closing.head {first large_first before : RunState} {taken large_taken : Agenda} {job : Job}
    {progress : Progress} (stepped : Steps context first small)
    (large_stepped : Steps context large_first large)
    (closing : Closing context embedding goal earlier last small large before taken large_taken job
      progress) :
    Closing context embedding goal earlier last first large_first before taken large_taken job
      progress :=
  { closing with
    passed := closing.passed.head stepped
    large_passed := closing.large_passed.head large_stepped }

/--
A run that ends well comes to the step that completes the root job of the smaller run that it
mirrors, and the smaller run does so too.
-/
theorem Mirrors.closes {Kept : Memo → Prop} {Done : Memo → RuleId → ExprId → Prop}
    (discipline : Discipline context goal Kept Done)
    (invariant : small.Invariant context Kept Done root goal)
    (mirrors : small.Mirrors embedding goal earlier large)
    (stops : StopsIn context steps large outcome) (outcome_eq : outcome = .ok (last, records))
    (succeeded : last.agenda.finish = .ok ()) : ∃ before taken large_taken job progress,
      Closing context embedding goal earlier last small large before taken large_taken job
        progress := by
  induction stops generalizing small records with
  | rest advance_eq =>
      cases outcome_eq
      have finished := finished_of_rest advance_eq succeeded
      rw [mirrors.agenda.unfinished.2] at finished
      cases finished
  | dangle => cases outcome_eq
  | @step large next record steps outcome advance_eq stops ih =>
      cases outcome with
      | error reference => cases outcome_eq
      | ok driven =>
          cases outcome_eq
          rcases mirrors.advance advance_eq with
            ⟨taken, large_taken, id, progress, next_eq, step_eq, taken_mirrors, rfl⟩
          have running := stops.running rfl (Memo.running_of_finish succeeded)
          by_cases last_step : record.outcome = .ok .done ∧ id = 0
          · rcases last_step with ⟨done, rfl⟩
            rw [done] at step_eq advance_eq stops
            exact ⟨small, taken, large_taken, record.job, progress, .refl, next_eq, step_eq,
              taken_mirrors, .single ⟨record, advance_eq⟩, steps, driven.2, stops⟩
          · have settled := taken_mirrors.settle (fun done zero => last_step ⟨done, zero⟩)
              (fun asking => invariant.within discipline next_eq (asking ▸ step_eq)) running
            have small_advance : small.advance context =
                .ok (⟨progress, taken.settle id record.outcome⟩,
                  some ⟨id, record.job, record.outcome⟩) := by
              rw [RunState.advance, next_eq]
              simp only [step_eq, bind, Except.bind, pure, Except.pure]
            have still : RunState.Mirrors embedding goal earlier
                ⟨progress, taken.settle id record.outcome⟩ ⟨progress.after earlier,
                  large_taken.settle (embedding.place id) record.outcome⟩ := ⟨settled, rfl⟩
            rcases ih (invariant.advance discipline small_advance).1 still rfl with
              ⟨before, later_taken, later_large, job, later, closing⟩
            exact ⟨before, later_taken, later_large, job, later,
              closing.head ⟨_, small_advance⟩ ⟨record, advance_eq⟩⟩

end Mirrors

end RunState

/-! ## Coming to the end -/

namespace RunState

variable {context : Context} {state last : RunState} {steps : Nat} {records : List StepRecord}

/-- A run that has finished stays as it is. -/
theorem StopsIn.of_finished (finished : state.agenda.finished = true) :
    StopsIn context 0 state (.ok (state, [])) := by
  refine .rest ?_
  rw [RunState.advance, Agenda.next, if_pos (.inl finished)]
  rfl

theorem finish_of_finished (finished : state.agenda.finished = true)
    (running : state.agenda.failure = none) : state.agenda.finish = .ok () := by
  rw [Agenda.finish, running]
  exact if_pos finished

section Closing

variable {embedding : Embedding} {goal : Goal} {earlier : RunCounts}
  {small large before : RunState} {taken large_taken : Agenda} {job : Job} {progress : Progress}
  (closing : Closing context embedding goal earlier last small large before taken large_taken job
    progress)
  (succeeded : last.agenda.finish = .ok ())
include closing succeeded

theorem Closing.running :
    (large_taken.settle (embedding.place 0) (.ok .done)).failure = none := by
  rcases closing.stops with ⟨steps, records, stops⟩
  exact stops.running rfl (Memo.running_of_finish succeeded)

omit succeeded in
theorem Closing.small_passed :
    ReflTransGen (Steps context) small ⟨progress, taken.settle 0 (.ok .done)⟩ := by
  have advance_eq : before.advance context = .ok (⟨progress, taken.settle 0 (.ok .done)⟩,
      some ⟨0, job, .ok .done⟩) := by
    rw [RunState.advance, closing.next]
    simp only [closing.step, bind, Except.bind, pure, Except.pure]
  exact closing.passed.tail ⟨_, advance_eq⟩

/-- The smaller run comes to its end with the step that completes its root job. -/
theorem Closing.small_stops : (∃ steps records, StopsIn context steps small
      (.ok (⟨progress, taken.settle 0 (.ok .done)⟩, records))) ∧
    (taken.settle 0 (.ok .done)).finish = .ok () ∧
      (taken.settle 0 (.ok .done)).created = taken.created := by
  rcases closing.mirrors.root_live (closing.running succeeded) with ⟨entry, live⟩
  rcases Agenda.settle_root live closing.mirrors.roots.1 closing.mirrors.running.1 with
    ⟨finished, unfailed, created⟩
  have ended : StopsIn context 0 ⟨progress, taken.settle 0 (.ok .done)⟩
      (.ok (⟨progress, taken.settle 0 (.ok .done)⟩, [])) := .of_finished finished
  exact ⟨ended.of_steps closing.small_passed,
    @finish_of_finished ⟨progress, _⟩ finished unfailed, created⟩

/-- If both runs have the same root job, the larger one comes to its end with that step, too. -/
theorem Closing.large_stops (root_place : embedding.place 0 = 0) :
    last.progress = progress.after earlier ∧
      last.agenda.created = taken.created + embedding.gap := by
  rcases closing.mirrors.root_live (closing.running succeeded) with ⟨entry, live⟩
  have large_live := closing.mirrors.live live
  rw [root_place] at large_live
  rcases Agenda.settle_root large_live closing.mirrors.roots.2 closing.mirrors.running.2 with
    ⟨finished, -, created⟩
  rcases closing.stops with ⟨steps, records, stops⟩
  rw [root_place] at stops
  have ended : StopsIn context 0 ⟨progress.after earlier, large_taken.settle 0 (.ok .done)⟩
      (.ok (⟨progress.after earlier, large_taken.settle 0 (.ok .done)⟩, [])) :=
    .of_finished finished
  cases stops.unique ended
  exact ⟨rfl, created.trans closing.mirrors.created⟩

end Closing

end RunState

end Cascades
