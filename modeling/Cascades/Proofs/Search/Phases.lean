import Cascades.Proofs.Search.Lockstep

/-!
# Exploring first and implementing later

A search for implementations asks for the exploration of its root first, and nothing else happens
until the whole exploration is over. Up to then it mirrors a search that only explores. Afterwards
its root job is the only one that is left, so it mirrors a search for implementations that starts
from the explored memo.
-/

namespace Cascades

open Relation

/-! ## Implementing -/

/-- Once a group has been explored, its job needs not ask for that, whether it would have to or not. -/
theorem GroupJob.step_explored_again {memo : Memo} {root : GroupId} {dispatched : Nat}
    (explored : memo.Reached root .explore) : ∃ memo_after step,
      GroupJob.step ⟨root, .implement, false, dispatched⟩ memo = (memo_after, .ok step) ∧
        GroupJob.step ⟨root, .implement, true, dispatched⟩ memo = (memo_after, .ok step) := by
  rcases explored with ⟨group, found, explored⟩
  have same : GroupJob.stepIn ⟨root, .implement, true, dispatched⟩ group =
      GroupJob.stepIn ⟨root, .implement, false, dispatched⟩ group := by
    have is_explored : group.explored = true := explored
    rw [stepIn, stepIn]
    simp [is_explored]
  rw [step, step, found]
  dsimp only
  rw [same]
  cases GroupJob.stepIn ⟨root, .implement, false, dispatched⟩ group with
  | mk step marks =>
      cases marks with
      | true => exact ⟨_, step, rfl, rfl⟩
      | false => exact ⟨_, step, rfl, rfl⟩

/-- The first step of a run, which is that of a group job. -/
theorem Job.first_step {context : Context} {job : GroupJob} {memo memo_after : Memo} {step : Step}
    (step_eq : job.step memo = (memo_after, .ok step)) :
    (Job.group job).step context ⟨memo, 0, 0, 0, false⟩ =
      .ok (⟨memo_after, 1, 0, 0, false⟩, .ok step) := by
  rw [Job.step]
  dsimp only
  rw [step_eq]
  rfl

namespace RunState

/-- The next step of a run whose root job is the only one that is left. -/
theorem advance_sole {context : Context} {state : RunState} {limit : Nat} {root : GroupId}
    {exploreRequired : Bool} {progress : Progress} {outcome : Except Failure Step}
    (sole : state.agenda.Sole limit root exploreRequired)
    (uncancelled : state.progress.cancelled = false)
    (step_eq : (Job.group ⟨root, .implement, exploreRequired, 0⟩).step context state.progress =
      .ok (progress, outcome)) : state.advance context =
      .ok (⟨progress, (state.agenda.soleTaken root).settle 0 outcome⟩,
        some ⟨0, .group ⟨root, .implement, exploreRequired, 0⟩, outcome⟩) := by
  rw [advance, uncancelled, sole.next]
  simp only [step_eq, bind, Except.bind, pure, Except.pure]

variable {context : Context} {large last : RunState} {steps limit gap : Nat}
  {records : List StepRecord} {root : GroupId} {memo : Memo} {earlier : RunCounts} {agenda : Agenda}

/--
A run whose only job is to implement an explored group goes on like a new run, and comes to the same
memo.
-/
theorem implements_after (built : memo.Built) (explored : memo.Reached root .explore)
    (sole : large.agenda.Sole limit root true) (created : large.agenda.created = 1 + gap)
    (progress_eq : large.progress = (Progress.mk memo 0 0 0 false).after earlier)
    (seeded : (Agenda.empty limit).seed (.group root .implement) = .ok agenda)
    (stops : StopsIn context steps large (.ok (last, records)))
    (succeeded : last.agenda.finish = .ok ()) : ∃ ended more others,
      StopsIn context more ⟨⟨memo, 0, 0, 0, false⟩, agenda⟩ (.ok (ended, others)) ∧
        ended.agenda.finish = .ok () ∧ last.progress = ended.progress.after earlier ∧
          last.agenda.created = ended.agenda.created + gap := by
  let small : RunState := ⟨⟨memo, 0, 0, 0, false⟩, agenda⟩
  let embedding : Embedding := ⟨1, gap, [], fun _ => none⟩
  rcases Agenda.sole_seed seeded with ⟨small_sole, small_created⟩
  have mirrors := small_sole.mirrors sole small_created created
  rcases @GroupJob.step_explored_again memo root 0 explored with
    ⟨memo_after, step, small_step, large_step⟩
  let progress : Progress := ⟨memo_after, 1, 0, 0, false⟩
  have small_advance :=
    @advance_sole context small _ _ _ _ _ small_sole rfl (Job.first_step small_step)
  have large_step_eq : (Job.group ⟨root, .implement, true, 0⟩).step context large.progress =
      .ok (progress.after earlier, .ok step) := by
    rw [progress_eq, Job.step_after, Job.first_step large_step]
    rfl
  have large_advance := advance_sole sole (congrArg Progress.cancelled progress_eq) large_step_eq
  have invariant : small.Invariant context Memo.Built (fun _ _ _ => True) root .implement :=
    .seeded built seeded
  have discipline := built_discipline context .implement
  rcases stops.tail large_advance with ⟨rest, rest_records, stops⟩
  have closes : ∃ before taken large_taken job progress,
      Closing context embedding .implement earlier last small large before taken large_taken job
        progress := by
    cases step with
    | done =>
        exact ⟨small, agenda.soleTaken root, large.agenda.soleTaken root, _, progress, .refl,
          small_sole.next, Job.first_step small_step, mirrors, .single ⟨_, large_advance⟩, _, _,
          stops⟩
    | suspend asking requests =>
        have running := stops.running rfl (Memo.running_of_finish succeeded)
        have within := invariant.within discipline small_sole.next (Job.first_step small_step)
        have settled := @Agenda.Mirrors.settle embedding .implement _ _ 0 mirrors
          (.ok (.suspend asking requests)) (by rintro ⟨⟩) (by rintro _ _ ⟨⟩; exact within) running
        have still : RunState.Mirrors embedding .implement earlier
            ⟨progress, (agenda.soleTaken root).settle 0 (.ok (.suspend asking requests))⟩
            ⟨progress.after earlier, (large.agenda.soleTaken root).settle 0
              (.ok (.suspend asking requests))⟩ := ⟨settled, rfl⟩
        rcases still.closes discipline (invariant.advance discipline small_advance).1 stops rfl
          succeeded with ⟨before, taken, large_taken, job, ended, closing⟩
        exact ⟨before, taken, large_taken, job, ended,
          closing.head ⟨_, small_advance⟩ ⟨_, large_advance⟩⟩
  rcases closes with ⟨before, taken, large_taken, job, ended, closing⟩
  rcases closing.small_stops succeeded with ⟨⟨more, others, small_stops⟩, finish_eq, created_eq⟩
  rcases closing.large_stops succeeded rfl with ⟨last_progress, last_created⟩
  refine ⟨_, more, others, small_stops, finish_eq, last_progress, ?_⟩
  rw [last_created, created_eq]

end RunState

/-! ## Exploring -/

namespace RunState

/--
A run that is to implement a group passes a state in which its root job is the only one that is left.
Up to there it has done what a run does that only explores, and what that run ends with has been
explored.
-/
structure Divides (context : Context) (limit : Nat) (root : GroupId)
    (last exploring explored between : RunState) : Prop where
  stops : ∃ steps records, StopsIn context steps exploring (.ok (explored, records))
  succeeded : explored.agenda.finish = .ok ()
  built : explored.progress.memo.Built
  reached : explored.progress.memo.Reached root .explore
  sole : between.agenda.Sole limit root true
  created : between.agenda.created = 1 + explored.agenda.created
  progress : between.progress = (Progress.mk explored.progress.memo 0 0 0 false).after
    ⟨explored.agenda.created, 1 + explored.progress.executed, explored.progress.rulesApplied,
      explored.progress.expressionsAdded⟩
  later : ∃ steps records, StopsIn context steps between (.ok (last, records))

variable {context : Context} {last : RunState} {steps limit : Nat} {records : List StepRecord}
  {root : GroupId} {memo : Memo} {agenda : Agenda}

/-- A run that goes on from a state without finishing there has not been cancelled. -/
theorem StopsIn.uncancelled {state : RunState}
    (stops : StopsIn context steps state (.ok (last, records)))
    (succeeded : last.agenda.finish = .ok ()) (unfinished : state.agenda.finished = false) :
    state.progress.cancelled = false := by
  by_contra cancelled
  rw [Bool.not_eq_false] at cancelled
  have running := stops.running rfl (Memo.running_of_finish succeeded)
  have failing : state.advance context =
      .ok ({ state with agenda := state.agenda.fail .cancelled }, none) := by
    rw [advance, cancelled, Agenda.next, if_neg (by simp [unfinished, running]), if_pos rfl]
    rfl
  generalize outcome_eq : (Except.ok (last, records) : Checked _) = outcome at stops
  cases stops with
  | rest advance_eq =>
      cases outcome_eq
      cases failing.symm.trans advance_eq
      exact Agenda.fail_ne_none _ _ (Memo.running_of_finish succeeded)
  | dangle => cases outcome_eq
  | step advance_eq => cases failing.symm.trans advance_eq

/-- From the state on in which the root job waits for the exploration, a run divides. -/
theorem divides_of_forked (built : memo.Built)
    (seeded : (Agenda.empty limit).seed (.group root .explore) = .ok agenda)
    (reached : Agenda.Reached limit (.group root .implement) (Agenda.forked limit root) [])
    (stops : StopsIn context steps ⟨⟨memo, 1, 0, 0, false⟩, Agenda.forked limit root⟩
      (.ok (last, records)))
    (succeeded : last.agenda.finish = .ok ()) : ∃ explored between,
      Divides context limit root last ⟨⟨memo, 0, 0, 0, false⟩, agenda⟩ explored between := by
  have invariant : RunState.Invariant context Memo.Built (fun _ _ _ => True) root .explore
      ⟨⟨memo, 0, 0, 0, false⟩, agenda⟩ := .seeded built seeded
  have discipline := built_discipline context .explore
  have mirrors : RunState.Mirrors (.exploration root) .explore ⟨0, 1, 0, 0⟩
      ⟨⟨memo, 0, 0, 0, false⟩, agenda⟩ ⟨⟨memo, 1, 0, 0, false⟩, Agenda.forked limit root⟩ :=
    ⟨Agenda.mirrors_fork seeded, rfl⟩
  rcases mirrors.closes discipline invariant stops rfl succeeded with
    ⟨before, taken, large_taken, job, progress, closing⟩
  have running := closing.running succeeded
  rcases closing.small_stops succeeded with ⟨small_stops, finish_eq, created_eq⟩
  rcases closing.mirrors.root_live running with ⟨entry, live⟩
  have scheduled : taken.Scheduled [0] :=
    ((reached_of_steps (.seed seeded) closing.passed).handOut closing.next).scheduled
      closing.mirrors.running.1
  have later := (reached_of_steps reached closing.large_passed).scheduled running
  have small_end := invariant.passes discipline closing.small_passed
  rcases closing.mirrors.sole scheduled live later with ⟨sole, large_created⟩
  have limit_eq : large_taken.limit = limit :=
    sole.limit.symm.trans (reached_of_steps reached closing.large_passed).limit_eq
  rcases closing.stops with ⟨more, others, stops⟩
  have uncancelled : progress.cancelled = false :=
    stops.uncancelled succeeded sole.unfinished
  refine ⟨_, _, small_stops, finish_eq, small_end.kept, small_end.finish finish_eq,
    limit_eq ▸ sole, ?_, ?_, more, others, stops⟩
  · rw [created_eq]
    exact large_created.trans (closing.mirrors.created.trans (Nat.add_comm _ 1))
  · rcases progress with ⟨memo, executed, rulesApplied, expressionsAdded, cancelled⟩
    obtain rfl : cancelled = false := uncancelled
    simp only [Progress.after, Nat.zero_add, Nat.add_zero]

/-- The first step of a run that is to implement an unexplored group asks for its exploration. -/
theorem forks {group : Group} (found : memo.group? root = some group)
    (unexplored : group.explored = false) (unimplemented : group.implemented = false)
    (seeded : (Agenda.empty limit).seed (.group root .implement) = .ok agenda)
    (stops : StopsIn context steps ⟨⟨memo, 0, 0, 0, false⟩, agenda⟩ (.ok (last, records)))
    (succeeded : last.agenda.finish = .ok ()) :
    Agenda.Reached limit (.group root .implement) (Agenda.forked limit root) [] ∧
      ∃ more others, StopsIn context more ⟨⟨memo, 1, 0, 0, false⟩, Agenda.forked limit root⟩
        (.ok (last, others)) := by
  let asking : Step := .suspend (.group ⟨root, .implement, true, 0⟩) [.group root .explore]
  have step_eq : GroupJob.step ⟨root, .implement, false, 0⟩ memo = (memo, .ok asking) := by
    rw [GroupJob.step, found]
    simp [GroupJob.stepIn, Group.reached, unexplored, unimplemented, asking]
  have advance_eq := @advance_sole context ⟨⟨memo, 0, 0, 0, false⟩, agenda⟩ _ _ _ _ _
    (Agenda.sole_seed seeded).1 rfl (Job.first_step step_eq)
  rcases stops.tail advance_eq with ⟨more, others, stops⟩
  have running := stops.running rfl (Memo.running_of_finish succeeded)
  have reached := reached_of_steps (.seed seeded) (.single ⟨_, advance_eq⟩)
  rw [Agenda.settle_fork seeded running] at stops reached
  exact ⟨reached, more, others, stops⟩

end RunState

/-! ## Searches -/

namespace Memo

variable {memo : Memo} {rules : Rulebook} {catalog : Catalog} {config : SearchConfig}
  {root : GroupId} {report : RunReport}

/--
A search for implementations that succeeds can be divided: if the memo is explored first and
implemented afterwards, then both searches succeed, they leave the same memo behind, and together
they do the same work, but for the step that asks for the exploration.
-/
theorem search_in_phases (built : memo.Built) {group : Group}
    (found : memo.group? root = some group) (unexplored : group.explored = false)
    (unimplemented : group.implemented = false)
    (search_eq : memo.search rules catalog { config with implement := true } root false = .ok report)
    (succeeded : report.outcome = .ok ()) : ∃ explored implemented,
      memo.search rules catalog { config with implement := false } root false = .ok explored ∧
        explored.memo.search rules catalog { config with implement := true } root false =
          .ok implemented ∧
        explored.outcome = .ok () ∧ implemented.outcome = .ok () ∧
          implemented.memo = report.memo ∧
            report.counts.rulesApplied =
              explored.counts.rulesApplied + implemented.counts.rulesApplied ∧
            report.counts.expressionsAdded =
              explored.counts.expressionsAdded + implemented.counts.expressionsAdded ∧
            report.counts.jobsCreated =
              explored.counts.jobsCreated + implemented.counts.jobsCreated ∧
            report.counts.jobsExecuted =
              1 + explored.counts.jobsExecuted + implemented.counts.jobsExecuted := by
  rcases built.driven search_eq succeeded with
    ⟨agenda, steps, last, records, holds, seeded, stops, rfl⟩
  have seeds (request : Request) :
      ∃ agenda, (Agenda.empty config.maxJobs).seed request = .ok agenda := by
    rw [Agenda.seed, Agenda.create] at seeded
    split at seeded
    · cases seeded
    · rename_i room
      rw [Agenda.seed, Agenda.create, if_neg room]
      exact ⟨_, rfl⟩
  rcases seeds (.group root .explore) with ⟨exploring, exploring_eq⟩
  rcases RunState.forks found unexplored unimplemented seeded stops succeeded with
    ⟨reached, more, others, forked_stops⟩
  rcases RunState.divides_of_forked built exploring_eq reached forked_stops succeeded with
    ⟨explored, between, divides⟩
  rcases divides.stops with ⟨first, first_records, explored_stops⟩
  rcases divides.later with ⟨later, later_records, later_stops⟩
  have created_eq : between.agenda.created = 1 + explored.agenda.created := divides.created
  rcases RunState.implements_after divides.built divides.reached divides.sole created_eq
    divides.progress seeded later_stops succeeded with
    ⟨implemented, second, second_records, implemented_stops, finish_eq, progress_eq, last_created⟩
  have explored_holds : explored.progress.memo.holdsGroup root = true :=
    decide_eq_true divides.reached.lt
  refine ⟨explored.report first_records, implemented.report second_records,
    built.search_of_stops false holds exploring_eq explored_stops,
    divides.built.search_of_stops false explored_holds seeded implemented_stops, divides.succeeded,
    finish_eq, ?_, ?_, ?_, ?_, ?_⟩
  · exact (congrArg Progress.memo progress_eq).symm
  · exact congrArg Progress.rulesApplied progress_eq
  · exact congrArg Progress.expressionsAdded progress_eq
  · exact last_created.trans (Nat.add_comm _ _)
  · exact congrArg Progress.executed progress_eq

/-- The 25 jobs of a join of two tables are divided into 10 that explore it and 15 others. -/
theorem search_in_phases_pair : ∃ report explored implemented,
    PlanSpace.pairJoined.search .standard .empty ⟨100, none, true⟩ 2 false = .ok report ∧
      PlanSpace.pairJoined.search .standard .empty ⟨100, none, false⟩ 2 false = .ok explored ∧
        explored.memo.search .standard .empty ⟨100, none, true⟩ 2 false = .ok implemented ∧
          report.outcome = .ok () ∧ implemented.memo = report.memo ∧
            report.counts.jobsCreated = 25 ∧
              explored.counts.jobsCreated + implemented.counts.jobsCreated = 25 := by
  rcases search_pairJoined with ⟨report, report_eq, succeeded, -, created_eq⟩
  rcases @search_in_phases PlanSpace.pairJoined .standard .empty ⟨100, none, true⟩ 2 report
    built_pairJoined _ rfl rfl rfl report_eq succeeded with
    ⟨explored, implemented, explored_eq, implemented_eq, -, -, memo_eq, -, -, jobs, -⟩
  exact ⟨report, explored, implemented, report_eq, explored_eq, implemented_eq, succeeded, memo_eq,
    created_eq, jobs.symm.trans created_eq⟩

end Memo

end Cascades
