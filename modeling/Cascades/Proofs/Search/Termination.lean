import Cascades.Proofs.Search.Effort
import Cascades.Proofs.Search.Integrity

/-!
# Every run ends

The jobs that a run creates pay for all its steps, four for each job, whatever the rules add to the
memo while it runs. The number of jobs is limited, so a run comes to its end by itself, and the
number of steps that a search makes at most never cuts it short.
-/

namespace Cascades

namespace RunState

variable {context : Context} {Kept : Memo → Prop} {Done : Memo → RuleId → ExprId → Prop}
  {root : GroupId} {goal : Goal} {limit : Nat} {state after : RunState}

/--
A run between two steps has paid for its steps, and also for those that its jobs have yet to make.
Groups have been explored when their expressions are implemented, so that no expression has to wait
for the exploration of its own group.
-/
structure Paced (limit : Nat) (state : RunState) : Prop where
  limited : state.agenda.limit = limit
  created : state.agenda.created ≤ limit
  executed : state.progress.executed ≤ 4 * state.agenda.created
  owed : state.agenda.failure = none →
    state.progress.executed + state.agenda.owed Job.remaining ≤ 4 * state.agenda.created
  explored : state.agenda.failure = none → ∀ {id member},
    state.agenda.Waits (.group id .implement) (.expression member .implement) →
      state.progress.memo.Reached id .explore

namespace Paced

theorem seeded {progress : Progress} {agenda : Agenda} {request : Request}
    (unstarted : progress.executed = 0) (seeded : (Agenda.empty limit).seed request = .ok agenda) :
    Paced limit ⟨progress, agenda⟩ := by
  have room : 1 ≤ limit := by
    rw [Agenda.seed, Agenda.create] at seeded
    split at seeded
    · cases seeded
    · rename_i room
      exact Nat.lt_of_not_le room
  rcases Agenda.seed_spec seeded with ⟨-, -, -, -, -, -, no_waits⟩
  have agenda_eq := Agenda.seed_eq seeded
  have created_eq : agenda.created = 1 := by rw [agenda_eq]; rfl
  have live : agenda.live? 0 = some ⟨some request.job, request, 0, [], []⟩ := by
    rw [agenda_eq]
    rfl
  have owed_eq : agenda.owed Job.remaining = request.job.remaining := by
    rw [Agenda.owed, created_eq, Finset.sum_range_one, Agenda.due_of_job live rfl]
  refine ⟨by rw [agenda_eq], created_eq ▸ room, ?_, ?_, fun _ _ _ waits => (no_waits waits).elim⟩
  · dsimp only
    omega
  · intro _
    have remaining_le := request.remaining_job_le
    dsimp only
    omega

theorem cancel (paced : state.Paced limit) : state.cancel.Paced limit :=
  ⟨paced.limited, paced.created, paced.executed, paced.owed, paced.explored⟩

/-- An agenda that hands out nothing changes no accounts. -/
theorem rest (invariant : state.Invariant context Kept Done root goal) (paced : state.Paced limit)
    {cancelled : Bool} {agenda : Agenda} (next_eq : state.agenda.next cancelled = (agenda, none)) :
    Paced limit { state with agenda } := by
  rcases Agenda.next_none_created next_eq with ⟨limit_eq, created_eq⟩
  have running (unfailed : agenda.failure = none) : agenda = state.agenda := by
    cases failed : state.agenda.failure with
    | some failure =>
        rw [Agenda.next_of_failure failed] at next_eq
        cases next_eq
        rfl
    | none =>
        exact (Agenda.next_none (invariant.orderly failed).consistent next_eq).resolve_right
          (absurd unfailed)
  refine ⟨limit_eq.trans paced.limited, created_eq ▸ paced.created, created_eq ▸ paced.executed,
    ?_, ?_⟩
  · intro unfailed
    obtain rfl := running unfailed
    exact paced.owed unfailed
  · intro unfailed
    obtain rfl := running unfailed
    exact paced.explored unfailed

section Step

variable {taken : Agenda} {id : JobId} {job : Job} {progress : Progress}
  {outcome : Except Failure Step} {cancelled : Bool}

/--
A step is paid for if it leaves its job with a step less to make, or with a new job for every four
steps more.
-/
theorem settled (paced : state.Paced limit) (running : state.agenda.failure = none)
    (executed : progress.executed = state.progress.executed + 1)
    (lends : state.agenda.Lends Job.remaining job.request job taken)
    {later : Agenda} {more : Nat} (charges : Agenda.Charges Job.remaining 3 taken later more)
    (affordable : later.failure = none → more + 1 ≤ job.remaining + (later.created - taken.created))
    (explored : later.failure = none → ∀ {id member},
      later.Waits (.group id .implement) (.expression member .implement) →
        progress.memo.Reached id .explore) :
    Paced limit ⟨progress, later⟩ := by
  have paid := paced.owed running
  have positive := job.remaining_pos
  have created_le := charges.created_le
  have created_eq := lends.created
  have owed_eq := lends.owed
  refine ⟨charges.limit.trans (lends.limit.trans paced.limited), ?_, ?_, ?_, explored⟩
  · rw [← paced.limited, ← lends.limit, ← charges.limit]
    exact charges.within
  · dsimp only
    omega
  · intro unfailed
    have more_owed := charges.owed unfailed
    have enough := affordable unfailed
    dsimp only
    omega

/-- The group of an expression that is to be implemented has been explored. -/
theorem explored_of_took (paced : state.Paced limit) (running : state.agenda.failure = none)
    (ordered : Orderly context Done root goal state.progress.memo state.agenda)
    {job : ExpressionJob}
    (took : state.agenda.Took id (.expression job.expression job.goal) (.expression job) taken)
    {expression : Expression} (stored : state.progress.memo.expression? job.expression = some expression)
    (implement : job.goal = .implement) :
    state.progress.memo.Reached expression.group .explore := by
  rcases took.stored with ⟨holder, entry, live, request_eq, -⟩
  have is_live : state.agenda.Live (.expression job.expression .implement) :=
    ⟨holder, entry, live, implement ▸ request_eq⟩
  rcases ordered.awaited_expression is_live with ⟨same, same_stored, -, waits⟩
  cases stored.symm.trans same_stored
  exact paced.explored running waits

variable (discipline : Discipline context goal Kept Done)
  (invariant : state.Invariant context Kept Done root goal) (paced : state.Paced limit)
  (next_eq : state.agenda.next cancelled = (taken, some (id, job)))
  (took : state.agenda.Took id job.request job taken)
include discipline invariant paced next_eq took

/-- A job that asks for more has a step less to make, or asks for a job that does not exist yet. -/
theorem step_remaining {next : Job} {requests : List Request}
    (step_eq : job.step context state.progress = .ok (progress, .ok (.suspend next requests))) :
    next.remaining < job.remaining ∨
      (next.remaining ≤ job.remaining ∧ ∃ asked ∈ requests, ¬ taken.Live asked) := by
  have running := Agenda.running_of_next next_eq
  have ordered := invariant.orderly running
  have consistent := discipline.consistent invariant.kept
  cases job with
  | group job =>
      refine (GroupJob.step_remaining (GroupJob.step_of_job step_eq)).imp_right ?_
      rintro ⟨remaining_le, member, member_mem, asked⟩
      refine ⟨remaining_le, _, asked, fun live => ?_⟩
      rcases ordered.awaited_expression (took.live.mp live) with ⟨expression, stored, -, waits⟩
      rcases consistent.of_mem_logicalIds member_mem with ⟨same, same_stored, group_eq⟩
      cases stored.symm.trans same_stored
      rw [group_eq] at waits
      exact Orderly.not_waits took waits
  | expression job =>
      rw [Job.step] at step_eq
      simp only [bind, Except.bind, pure, Except.pure] at step_eq
      split at step_eq
      · cases step_eq
      · rename_i stepped
        cases step_eq
        exact .inl (ExpressionJob.step_remaining
          (fun _ => explored_of_took paced running ordered took) stepped)
  | applyRule job =>
      cases (RuleJob.marks_of_step step_eq).1 _ rfl

omit discipline in
/-- After a step, whoever waits for an expression to be implemented has explored its group. -/
theorem settle_explored (step_eq : job.step context state.progress = .ok (progress, outcome))
    (achieves : Achieves context Kept Done state.progress.memo progress.memo job.request outcome)
    (unfailed : (taken.settle id outcome).failure = none) {group : GroupId} {member : ExprId}
    (waits : (taken.settle id outcome).Waits (.group group .implement)
      (.expression member .implement)) : progress.memo.Reached group .explore := by
  have running := Agenda.running_of_next next_eq
  have ordered := invariant.orderly running
  have lowered := took.outstanding (taken.outstanding - 1)
  have earlier (before : state.agenda.Waits (.group group .implement)
      (.expression member .implement)) : progress.memo.Reached group .explore :=
    achieves.grows.reached (paced.explored running before)
  rcases outcome with failure | (_ | ⟨next, requests⟩)
  · exact (Agenda.fail_ne_none _ failure unfailed).elim
  · have completed := Agenda.complete_spec lowered.consistent lowered.handedOut
    exact earlier (lowered.waits.mp (completed.waits.mp waits).1)
  · rcases Agenda.suspend_spec lowered.consistent lowered.handedOut with failed | suspended
    · exact (failed unfailed).elim
    · rcases suspended.waits.mp waits with before | ⟨request_eq, asked⟩
      · exact earlier (lowered.waits.mp before)
      · cases job with
        | group job =>
            obtain rfl : group = job.group := (Request.group.inj request_eq).1
            have stepped := GroupJob.step_of_job step_eq
            exact achieves.grows.reached
              (GroupJob.step_explored (ordered.progressed took).2 stepped asked)
        | expression job => cases request_eq
        | applyRule job => cases request_eq

omit took in
/-- Every step is paid for. -/
theorem step (step_eq : job.step context state.progress = .ok (progress, outcome)) :
    Paced limit ⟨progress, taken.settle id outcome⟩ := by
  have running := Agenda.running_of_next next_eq
  have ordered := invariant.orderly running
  rcases invariant.achieves discipline.toStable next_eq
    (fun _ => fun _ => discipline.passed_over invariant.kept) step_eq with ⟨took, achieves⟩
  let lowered : Agenda := { taken with outstanding := taken.outstanding - 1 }
  have lends : state.agenda.Lends Job.remaining job.request job lowered :=
    Agenda.lends_of_next ordered.consistent next_eq took _
  have within_limit : lowered.created ≤ lowered.limit := by
    rw [lends.created, lends.limit, paced.limited]
    exact paced.created
  have explored := settle_explored invariant paced next_eq took step_eq achieves
  have positive := job.remaining_pos
  have settled_took := took.outstanding (taken.outstanding - 1)
  rcases outcome with failure | (_ | ⟨next, requests⟩)
  · exact settled paced running (Job.step_executed step_eq) lends
      (Agenda.charges_fail within_limit failure) (fun _ => by omega) explored
  · rcases settled_took.handedOut with ⟨held, held_live, -, job_none⟩
    have charges : Agenda.Charges Job.remaining 3 lowered (lowered.complete id) 0 :=
      Agenda.charges_complete settled_took.consistent held_live job_none within_limit
    exact settled paced running (Job.step_executed step_eq) lends charges
      (fun _ => by omega) explored
  · have charged : Agenda.Charges Job.remaining 3 lowered (lowered.suspend id next requests)
        next.remaining ∧ ((lowered.suspend id next requests).failure = none → ∀ asked ∈ requests,
          ¬ lowered.Live asked → lowered.created < (lowered.suspend id next requests).created) :=
      Agenda.charges_suspend settled_took.consistent settled_took.handedOut within_limit
        fun asked _ => asked.remaining_job_le
    rcases charged with ⟨charges, creates⟩
    refine settled paced running (Job.step_executed step_eq) lends charges
      ?_ explored
    intro unfailed
    change next.remaining + 1 ≤
      job.remaining + ((lowered.suspend id next requests).created - lowered.created)
    rcases step_remaining discipline invariant paced next_eq took step_eq with
      less | ⟨no_more, asked, asked_mem, unserved⟩
    · omega
    · have more := creates unfailed asked asked_mem unserved
      omega

end Step

theorem advance (discipline : Discipline context goal Kept Done)
    (invariant : state.Invariant context Kept Done root goal) (paced : state.Paced limit)
    {record : Option StepRecord} (advance_eq : state.advance context = .ok (after, record)) :
    after.Paced limit := by
  rw [RunState.advance] at advance_eq
  cases next_eq : state.agenda.next state.progress.cancelled with
  | mk taken handed =>
      rw [next_eq] at advance_eq
      cases handed with
      | none =>
          cases advance_eq
          exact rest invariant paced next_eq
      | some pair =>
          rcases pair with ⟨id, job⟩
          simp only [bind, Except.bind, pure, Except.pure] at advance_eq
          split at advance_eq
          · cases advance_eq
          · rename_i step_eq
            cases advance_eq
            exact step discipline invariant paced next_eq step_eq

theorem drive (discipline : Discipline context goal Kept Done)
    (invariant : state.Invariant context Kept Done root goal) (paced : state.Paced limit)
    {steps : Nat} {records : List StepRecord}
    (drive_eq : state.drive context steps = .ok (after, records)) : after.Paced limit := by
  let Holds (last : RunState) : Prop := last.Invariant context Kept Done root goal ∧ last.Paced limit
  have holds : Holds state := ⟨invariant, paced⟩
  have kept : Holds after := by
    refine drive_keeps (fun {before next record} holds advance_eq => ?_) holds drive_eq
    exact ⟨(holds.1.advance discipline advance_eq).1, advance discipline holds.1 holds.2 advance_eq⟩
  exact kept.2

end Paced

/-! ## Runs without a limit on their steps -/

/--
A run that steps jobs until none is handed out makes some number of steps, without a limit on them,
and then rests, or follows a dangling reference in its next step.
-/
inductive StopsIn (context : Context) :
    Nat → RunState → Checked (RunState × List StepRecord) → Prop
  | rest {state last : RunState} : state.advance context = .ok (last, none) →
      StopsIn context 0 state (.ok (last, []))
  | dangle {state : RunState} {reference : Dangling} : state.advance context = .error reference →
      StopsIn context 0 state (.error reference)
  | step {state next : RunState} {record : StepRecord} {steps : Nat}
      {outcome : Checked (RunState × List StepRecord)} :
      state.advance context = .ok (next, some record) → StopsIn context steps next outcome →
        StopsIn context (steps + 1) state
          (outcome.map fun (last, records) => (last, record :: records))

/-- A limit on the steps is exhausted, or it changes nothing. -/
theorem drive_cases (steps : Nat) (state : RunState) :
    (∃ taken, taken < steps ∧ StopsIn context taken state (state.drive context steps)) ∨
      ∃ last records, state.drive context steps = .ok (last, records) ∧ records.length = steps := by
  induction steps generalizing state with
  | zero => exact .inr ⟨state, [], rfl, rfl⟩
  | succ steps ih =>
      rw [RunState.drive]
      cases advance_eq : state.advance context with
      | error reference => exact .inl ⟨0, Nat.succ_pos steps, .dangle advance_eq⟩
      | ok advanced =>
          rcases advanced with ⟨next, none | record⟩
          · exact .inl ⟨0, Nat.succ_pos steps, .rest advance_eq⟩
          · simp only [bind, Except.bind, pure, Except.pure]
            rcases ih next with ⟨taken, less, stops⟩ | ⟨last, records, drive_eq, length_eq⟩
            · refine .inl ⟨taken + 1, Nat.succ_lt_succ less, ?_⟩
              have stepped := StopsIn.step advance_eq stops
              cases outcome_eq : next.drive context steps with
              | error reference => rwa [outcome_eq] at stepped
              | ok driven => rwa [outcome_eq] at stepped
            · rw [drive_eq]
              exact .inr ⟨last, record :: records, rfl, congrArg (· + 1) length_eq⟩

theorem advance_executed {record : Option StepRecord}
    (advance_eq : state.advance context = .ok (after, record)) :
    after.progress.executed = state.progress.executed + record.toList.length := by
  rw [RunState.advance] at advance_eq
  split at advance_eq
  · cases advance_eq
    rfl
  · simp only [bind, Except.bind, pure, Except.pure] at advance_eq
    split at advance_eq
    · cases advance_eq
    · rename_i step_eq
      cases advance_eq
      exact Job.step_executed step_eq

/-- Every step of a run is counted. -/
theorem drive_executed {steps : Nat} {records : List StepRecord}
    (drive_eq : state.drive context steps = .ok (after, records)) :
    after.progress.executed = state.progress.executed + records.length := by
  induction steps generalizing state records with
  | zero =>
      cases drive_eq
      rfl
  | succ steps ih =>
      rw [RunState.drive] at drive_eq
      simp only [bind, Except.bind, pure, Except.pure] at drive_eq
      split at drive_eq
      · cases drive_eq
      · rename_i advance_eq
        split at drive_eq
        · cases drive_eq
          exact advance_executed advance_eq
        · split at drive_eq
          · cases drive_eq
          · rename_i rest_eq
            cases drive_eq
            have counted := advance_executed advance_eq
            have rest_counted := ih rest_eq
            rw [Option.toList_some, List.length_singleton] at counted
            rw [List.length_cons]
            omega

/-- The limit on the steps of a search is never exhausted. -/
theorem Paced.stops (discipline : Discipline context goal Kept Done)
    (invariant : state.Invariant context Kept Done root goal) (paced : state.Paced limit) :
    ∃ steps, steps ≤ 4 * limit ∧
      StopsIn context steps state (state.drive context (Memo.stepLimit limit)) := by
  rcases @drive_cases context (Memo.stepLimit limit) state with
    ⟨steps, less, stops⟩ | ⟨last, records, drive_eq, length_eq⟩
  · exact ⟨steps, Nat.le_of_lt_succ less, stops⟩
  · have executed := drive_executed drive_eq
    have later := paced.drive discipline invariant drive_eq
    have paid := later.executed
    have within_limit := later.created
    have limited := later.limited
    rw [Memo.stepLimit] at length_eq
    omega

end RunState

/-! ## Searches -/

namespace Memo

variable {memo : Memo} {rules : Rulebook} {catalog : Catalog} {config : SearchConfig}
  {root : GroupId}

/--
A search without a limit on its steps makes some number of steps and comes to an outcome. It makes
none if the root is unknown or no job may be created.
-/
inductive StopsIn (memo : Memo) (rules : Rulebook) (catalog : Catalog) (config : SearchConfig)
    (root : GroupId) (cancelled : Bool) : Nat → Checked RunReport → Prop
  | unknown : memo.holdsGroup root = false → StopsIn memo rules catalog config root cancelled 0
      (.ok ⟨memo, [], ⟨0, 0, 0, 0⟩, .error (.corrupted (.unknownRoot root))⟩)
  | refused {failure : Failure} : memo.holdsGroup root = true →
      (Agenda.empty config.maxJobs).seed (.group root config.goal) = .error failure →
        StopsIn memo rules catalog config root cancelled 0
          (.ok { (memo.initialState config.maxJobs cancelled).report [] with
            outcome := .error failure })
  | driven {agenda : Agenda} {steps : Nat} {outcome : Checked (RunState × List StepRecord)} :
      memo.holdsGroup root = true →
        (Agenda.empty config.maxJobs).seed (.group root config.goal) = .ok agenda →
          RunState.StopsIn (context rules catalog config) steps
            { memo.initialState config.maxJobs cancelled with agenda } outcome →
              StopsIn memo rules catalog config root cancelled steps
                (outcome.map fun (state, records) => state.report records)

theorem Built.stops (built : memo.Built) (rules : Rulebook) (catalog : Catalog)
    (config : SearchConfig) (root : GroupId) (cancelled : Bool) :
    ∃ steps, steps ≤ 4 * config.maxJobs ∧ memo.StopsIn rules catalog config root cancelled steps
      (memo.search rules catalog config root cancelled) := by
  rw [search]
  cases holds : memo.holdsGroup root with
  | false => exact ⟨0, Nat.zero_le _, .unknown holds⟩
  | true =>
      rw [if_pos rfl, Memo.serve]
      cases seeded : (Agenda.empty config.maxJobs).seed (.group root config.goal) with
      | error failure =>
          refine ⟨0, Nat.zero_le _, ?_⟩
          simp only [initialState, seeded]
          exact .refused holds seeded
      | ok agenda =>
          have invariant : RunState.Invariant (context rules catalog config) Built
              (fun _ _ _ => True) root config.goal
              { memo.initialState config.maxJobs cancelled with agenda } :=
            .seeded built seeded
          have paced : RunState.Paced config.maxJobs
              { memo.initialState config.maxJobs cancelled with agenda } := .seeded rfl seeded
          rcases paced.stops (built_discipline _ _) invariant with ⟨steps, steps_le, stops⟩
          refine ⟨steps, steps_le, ?_⟩
          have driven := StopsIn.driven holds seeded stops
          simp only [initialState, seeded, bind, Except.bind, pure, Except.pure]
          rw [initialState] at driven
          split
          · rename_i drive_eq
            rwa [drive_eq] at driven
          · rename_i drive_eq
            rwa [drive_eq] at driven

/-- A run that leaves a report behind has made four steps at most for each of its jobs. -/
theorem Runs.paced (built : memo.Built) {report : RunReport}
    (runs : memo.Runs rules catalog config root report) :
    report.steps.length = report.counts.jobsExecuted ∧
      report.counts.jobsExecuted ≤ 4 * report.counts.jobsCreated ∧
        report.counts.jobsCreated ≤ config.maxJobs := by
  rcases runs.cases with ⟨-, -, steps_eq, counts_eq⟩ | ⟨cancelled, agenda, early, middle, earlier,
    continued, late, state, later, seeded, early_eq, continued_eq, late_eq, rfl⟩
  · rw [steps_eq, counts_eq]
    exact ⟨rfl, Nat.zero_le _, Nat.zero_le _⟩
  · have discipline := built_discipline (context rules catalog config) config.goal
    have invariant : RunState.Invariant (context rules catalog config) Built (fun _ _ _ => True)
        root config.goal { memo.initialState config.maxJobs cancelled with agenda } :=
      .seeded built seeded
    have started : RunState.Paced config.maxJobs
        { memo.initialState config.maxJobs cancelled with agenda } := .seeded rfl seeded
    have between := (invariant.drive discipline early_eq).1
    have early_paced := started.drive discipline invariant early_eq
    have still : continued.Invariant (context rules catalog config) Built (fun _ _ _ => True) root
        config.goal ∧ continued.Paced config.maxJobs ∧
          continued.progress.executed = middle.progress.executed := by
      rcases continued_eq with rfl | rfl
      · exact ⟨between, early_paced, rfl⟩
      · exact ⟨⟨between.kept, between.orderly⟩, early_paced.cancel, rfl⟩
    have paced := still.2.1.drive discipline still.1 late_eq
    have early_executed := RunState.drive_executed early_eq
    have late_executed := RunState.drive_executed late_eq
    refine ⟨?_, paced.executed, paced.created⟩
    rw [still.2.2, early_executed] at late_executed
    simpa [RunState.report, initialState] using late_executed.symm

/-- A search with total rules on an intact memo follows no dangling reference. -/
theorem Intact.search_total (intact : memo.Intact) (total : rules.Total catalog)
    (cancelled : Bool) : ∃ report, memo.search rules catalog config root cancelled = .ok report := by
  rw [search]
  split
  · rw [Memo.serve]
    dsimp only
    split
    · exact ⟨_, rfl⟩
    · rename_i agenda seeded
      have invariant : RunState.Invariant (context rules catalog config) Intact
          (fun _ _ _ => True) root config.goal
          { memo.initialState config.maxJobs cancelled with agenda } := .seeded intact seeded
      rcases invariant.drive_total total (stepLimit config.maxJobs) with
        ⟨state, records, drive_eq⟩
      simp only [drive_eq, bind, Except.bind, pure, Except.pure]
      exact ⟨_, rfl⟩
  · exact ⟨_, rfl⟩

/--
A search comes to its end by itself, after four steps at most for each job that it creates and so
after four times as many steps as it may create jobs, whatever the rules are. This holds as well of a
run that is cancelled in between. If all children of expressions exist and the rules are total, it
ends with a report, that is, with success or with a failure.
-/
theorem search_linear (built : memo.Built) (cancelled : Bool) :
    (∃ steps, steps ≤ 4 * config.maxJobs ∧ memo.StopsIn rules catalog config root cancelled steps
      (memo.search rules catalog config root cancelled)) ∧
    (∀ report, memo.Runs rules catalog config root report →
      report.steps.length = report.counts.jobsExecuted ∧
        report.counts.jobsExecuted ≤ 4 * report.counts.jobsCreated ∧
          report.counts.jobsCreated ≤ config.maxJobs) ∧
    (memo.Closed → rules.Total catalog →
      ∃ report, memo.search rules catalog config root cancelled = .ok report) :=
  ⟨built.stops rules catalog config root cancelled, fun _ runs => runs.paced built,
    fun closed total => Intact.search_total ⟨built, closed⟩ total cancelled⟩

/-- The standard rules join two tables in 42 steps of 25 jobs. -/
theorem search_linear_pair : ∃ report,
    PlanSpace.pairJoined.search .standard .empty ⟨100, none, true⟩ 2 false = .ok report ∧
      report.steps.length = 42 ∧ report.counts.jobsCreated = 25 ∧
        report.counts.jobsExecuted ≤ 4 * report.counts.jobsCreated := by
  rcases @search_linear _ .standard .empty ⟨100, none, true⟩ 2 built_pairJoined false with
    ⟨-, bounded, ends⟩
  rcases ends untouched_pairJoined.closed (Rules.total_standard .empty) with ⟨report, report_eq⟩
  rcases search_pairJoined with ⟨same, same_eq, -, steps_eq, created_eq⟩
  cases report_eq.symm.trans same_eq
  exact ⟨report, report_eq, steps_eq, created_eq, (bounded report (.inl ⟨false, report_eq⟩)).2.1⟩

/-- A filter over a group that also holds a sequential scan of a group that does not exist. -/
def danglingScan : Memo :=
  let scanned := (add empty (.logical (.scan ⟨"public", "a"⟩ [] none)) [] none).1
  match scanned.addTo 0 (.physical (.seqScan ⟨"public", "a"⟩ [] none)) [9] none with
  | .ok (memo, _) => (memo.add (.logical (.filter .truth)) [0] none).1
  | .error _ => scanned

/-- Matches filters over physical expressions over logical ones, and gives nothing. -/
def filterOverPhysical : Rule where
  name := "FilterOverPhysical"
  kind := .transformation
  pattern := .node (.exactly (.logical .filter)) [.node .anyPhysical [.node .anyLogical []]]
  incompatible := []
  promise := Rule.defaultPromise
  apply := fun _ _ _ => .ok (.results [])

/-- The rulebook of this rule alone. -/
def filterRules : Rulebook :=
  (Rulebook.empty.register filterOverPhysical none).1

/--
Children that do not exist are followed when an expression is compared with a pattern: a search with
a rule that always answers is stopped by a dangling reference.
-/
theorem search_dangles : danglingScan.Built ∧
    (∀ {id rule}, filterRules.lookup id = .ok rule → ∀ expression memo catalog,
      (∃ promise, rule.promise expression memo catalog = .ok promise) ∧
        ∃ application, rule.apply expression memo catalog = .ok application) ∧
    danglingScan.search filterRules .empty ⟨100, none, false⟩ 1 false = .error (.group 9) := by
  refine ⟨?_, ?_, ?_⟩
  · rw [danglingScan]
    split
    · rename_i added
      exact .add _ _ _ (.addTo (.add _ _ _ .empty) added)
    · exact .add _ _ _ .empty
  · intro id rule lookup_eq expression memo catalog
    have slots_eq : filterRules.slots = #[.active filterOverPhysical none] := by
      with_unfolding_all rfl
    have same : rule = filterOverPhysical := by
      rw [Rulebook.lookup, Rulebook.slot?, slots_eq] at lookup_eq
      split at lookup_eq
      · rename_i held source slot_eq
        cases lookup_eq
        have slot_mem := Array.mem_of_getElem? slot_eq
        simp only [List.mem_toArray, List.mem_singleton, RuleSlot.active.injEq] at slot_mem
        exact slot_mem.1
      · cases lookup_eq
      · cases lookup_eq
    subst same
    exact ⟨⟨_, rfl⟩, ⟨_, rfl⟩⟩
  · exact eq_error_of_failureOf (by decide +kernel)

end Memo

end Cascades
