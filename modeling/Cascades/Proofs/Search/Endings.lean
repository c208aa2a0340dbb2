import Cascades.Proofs.Search.Lineage
import Cascades.Proofs.Search.Termination

/-!
# How searches with the standard rules end

On a memo that is built bottom-up, no step with the standard rules fails and no group ever reads
itself. What is left to end a search early is the limit on its jobs.
-/

namespace Cascades

open Rules (numberedTransformations numberedImplementations)

/-! ## Steps that succeed -/

section Steps

variable {catalog : Catalog} {config : SearchConfig}

theorem Memo.phase_standard {goal : Goal} {rule : RuleId}
    (rule_mem : rule ∈ (Memo.context .standard catalog config).phase goal) :
    (goal = .explore ∧ ∃ held, (rule, held) ∈ numberedTransformations) ∨
      (goal = .implement ∧ ∃ held, (rule, held) ∈ numberedImplementations) := by
  cases goal with
  | explore =>
      rw [phase_explore] at rule_mem
      rcases List.mem_map.mp rule_mem with ⟨⟨_, held⟩, pair_mem, rfl⟩
      exact .inl ⟨rfl, held, pair_mem⟩
  | implement =>
      rw [phase_implement] at rule_mem
      rcases List.mem_map.mp rule_mem with ⟨⟨_, held⟩, pair_mem, rfl⟩
      exact .inr ⟨rfl, held, pair_mem⟩

/-- A rule that the phases name is in the book. -/
theorem Memo.phase_lookup {goal : Goal} {rule : RuleId}
    (rule_mem : rule ∈ (Memo.context .standard catalog config).phase goal) :
    ∃ held, Rulebook.standard.lookup rule = .ok held := by
  rcases phase_standard rule_mem with ⟨-, held, pair_mem⟩ | ⟨-, held, pair_mem⟩
  · exact ⟨held, Rulebook.lookup_transformation pair_mem⟩
  · exact ⟨held, Rulebook.lookup_implementation pair_mem⟩

/-- The groups that jobs are to drive exist, because whoever asks for them has read them. -/
theorem Orderly.group_lt {context : Context} {Done : Memo → RuleId → ExprId → Prop}
    {root : GroupId} {goal : Goal} {memo : Memo} {agenda : Agenda}
    (orderly : Orderly context Done root goal memo agenda) (consistent : memo.Consistent)
    (closed : memo.Closed) (root_lt : root < memo.groups.size) {id : GroupId} {wanted : Goal}
    (live : agenda.Live (.group id wanted)) : id < memo.groups.size := by
  have implemented {id : GroupId} (live : agenda.Live (.group id .implement)) :
      id < memo.groups.size := by
    rcases orderly.parents live with same | ⟨parent, waits⟩
    · cases same
      exact root_lt
    · cases orderly.asks waits with
      | child stored child_mem => exact closed stored id child_mem
  rcases orderly.parents live with same | ⟨parent, waits⟩
  · cases same
    exact root_lt
  · have parent_live : agenda.Live parent := by
      rcases waits with ⟨holder, entry, holder_live, request_eq, -⟩
      exact ⟨holder, entry, holder_live, request_eq⟩
    cases orderly.asks waits with
    | exploration => exact implemented parent_live
    | child stored child_mem => exact closed stored id child_mem
    | ownGroup stored => exact consistent.group_lt stored

theorem GroupJob.step_succeeds {job : GroupJob} {memo : Memo} (group_lt : job.group < memo.groups.size) :
    ∃ step, (job.step memo).2 = .ok step := by
  have found : memo.group? job.group = some memo.groups[job.group] :=
    Array.getElem?_eq_getElem group_lt
  rw [GroupJob.step, found]
  dsimp only
  split
  · exact ⟨_, rfl⟩
  · exact ⟨_, rfl⟩

/-- A rule that gives results does not cancel the run. -/
theorem RuleJob.step_cancelled {context : Context} {progress after : Progress} {rule : RuleId}
    {id : ExprId} {expression : Expression} {held : Rule} {results : List RuleResult}
    {outcome : Except Failure Step} (consistent : progress.memo.Consistent)
    (stored : progress.memo.expression? id = some expression)
    (lookup_eq : context.rules.lookup rule = .ok held)
    (apply_eq : held.apply { expression with applied := expression.applied.insert rule }
      (progress.memo.marked expression rule) context.catalog = .ok (.results results))
    (step_eq : RuleJob.step ⟨rule, id⟩ context progress = .ok (after, outcome)) :
    after.cancelled = progress.cancelled := by
  have marked_stored : (progress.memo.marked expression rule).expression? id =
      some { expression with applied := expression.applied.insert rule } := by
    rw [Memo.expression?_marked consistent stored, if_pos rfl]
  rw [step, Memo.markApplied_eq consistent stored] at step_eq
  simp only [bind, Except.bind, pure, Except.pure] at step_eq
  split at step_eq
  · cases step_eq
    rfl
  · rw [lookup_eq] at step_eq
    simp only [Memo.expression, marked_stored, run, apply_eq, bind, Except.bind, pure, Except.pure,
      Application.results] at step_eq
    split at step_eq
    · cases step_eq
    · cases step_eq
      exact Bool.or_false _

theorem ExpressionJob.step_succeeds {job : ExpressionJob} {memo : Memo} {expression : Expression}
    {outcome : Except Failure Step} (consistent : memo.Consistent)
    (stored : memo.expression? job.expression = some expression)
    (step_eq : job.step (Memo.context .standard catalog config) memo = .ok outcome) :
    ∃ step, outcome = .ok step := by
  cases outcome with
  | ok step => exact ⟨step, rfl⟩
  | error failure =>
      exfalso
      rcases ExpressionJob.step_failure step_eq with ⟨rule, rule_mem, lookup_eq⟩ | ⟨-, missing⟩
      · rcases Memo.phase_lookup rule_mem with ⟨held, held_eq⟩
        cases held_eq.symm.trans lookup_eq
      · rcases consistent.housed stored with ⟨group, found, -⟩
        cases found.symm.trans (missing expression stored)

/-- The standard rules succeed where a job is to apply them, and cancel nothing. -/
theorem RuleJob.step_succeeds {ground : Ground} {weight : GroupId → Multiset TableRef}
    {goal : Goal} {rule : RuleId} {id : ExprId} {expression : Expression} {progress after : Progress}
    {outcome : Except Failure Step} (saturating : progress.memo.Saturating catalog)
    (descends : progress.memo.Descends ground weight)
    (rule_mem : rule ∈ (Memo.context .standard catalog config).phase goal)
    (ripe : progress.memo.Ripe id goal expression)
    (unreached : ¬ progress.memo.Reached expression.group goal)
    (step_eq : RuleJob.step ⟨rule, id⟩ (Memo.context .standard catalog config) progress =
      .ok (after, outcome)) :
    (∃ step, outcome = .ok step) ∧ after.cancelled = progress.cancelled := by
  obtain rfl := saturating.consistent.numbered ripe.stored
  let noted : Expression := { expression with applied := expression.applied.insert rule }
  have noted_stored : (progress.memo.marked expression rule).expression? noted.id =
      some noted := by
    rw [Memo.expression?_marked saturating.consistent ripe.stored, if_pos rfl]
  have uncancelled {held : Rule}
      (pair_mem : (rule, held) ∈ numberedTransformations ++ numberedImplementations) :
      after.cancelled = progress.cancelled := by
    rcases (descends.marked ripe.stored rule).applies noted_stored pair_mem with
      ⟨results, apply_eq, -⟩
    exact RuleJob.step_cancelled saturating.consistent ripe.stored
      (Rulebook.lookup_standard pair_mem) apply_eq step_eq
  rcases Memo.phase_standard rule_mem with ⟨rfl, held, pair_mem⟩ | ⟨rfl, held, pair_mem⟩
  · have settled := saturating.transform pair_mem ripe.stored ripe.children unreached step_eq
    exact ⟨⟨.done, settled.1⟩, uncancelled (List.mem_append_left _ pair_mem)⟩
  · have settled := saturating.implement pair_mem ripe.stored step_eq
    exact ⟨⟨.done, settled.1⟩, uncancelled (List.mem_append_right _ pair_mem)⟩

/-- No step of the standard rules fails, and none cancels the run. -/
theorem RunState.Invariant.step_succeeds {ground : Ground} {root : GroupId} {goal : Goal}
    {state : RunState} {cancelled : Bool} {taken : Agenda} {id : JobId} {job : Job}
    {progress : Progress} {outcome : Except Failure Step}
    (invariant : state.Invariant (Memo.context .standard catalog config)
      (Memo.Governed ground catalog) (Memo.Finished catalog) root goal)
    (root_lt : root < state.progress.memo.groups.size)
    (next_eq : state.agenda.next cancelled = (taken, some (id, job)))
    (took : state.agenda.Took id job.request job taken)
    (step_eq : job.step (Memo.context .standard catalog config) state.progress =
      .ok (progress, outcome)) :
    (∃ step, outcome = .ok step) ∧ progress.cancelled = state.progress.cancelled := by
  have ordered := invariant.orderly (Agenda.running_of_next next_eq)
  rcases invariant.kept with ⟨saturating, -, weight, descends⟩
  have live : state.agenda.Live job.request := by
    rcases took.stored with ⟨holder, entry, holder_live, request_eq, -⟩
    exact ⟨holder, entry, holder_live, request_eq⟩
  cases job with
  | group job =>
      cases step_eq
      exact ⟨GroupJob.step_succeeds
        (ordered.group_lt saturating.consistent saturating.closed root_lt live), rfl⟩
  | expression job =>
      rcases ordered.awaited_expression live with ⟨expression, stored, -⟩
      rw [Job.step] at step_eq
      simp only [bind, Except.bind, pure, Except.pure] at step_eq
      split at step_eq
      · cases step_eq
      · rename_i stepped
        cases step_eq
        exact ⟨ExpressionJob.step_succeeds saturating.consistent stored stepped, rfl⟩
  | applyRule job =>
      rcases ordered.asked took rfl with ⟨wanted, expression, -, rule_mem, ripe, unreached, -⟩
      let started : Progress := { state.progress with executed := state.progress.executed + 1 }
      exact @RuleJob.step_succeeds _ _ _ _ wanted _ _ expression started _ _ saturating descends
        rule_mem ripe unreached step_eq

end Steps

/-! ## Agendas without failing steps -/

namespace Agenda

variable {agenda after : Agenda} {id : JobId} {job : Job} {requests : List Request}
  {failure : Failure}

theorem assignAll_failure (within_limit : agenda.created ≤ agenda.limit)
    (assigned : agenda.assignAll id job requests = (after, .error failure)) :
    failure.kind = .structuralCycle ∨
      (failure = .budgetExhausted agenda.limit ∧ after.created = agenda.limit) := by
  induction requests generalizing agenda with
  | nil => cases assigned
  | cons request rest ih =>
      rw [assignAll] at assigned
      cases first_eq : agenda.assign id job request with
      | error refused =>
          rw [first_eq] at assigned
          cases assigned
          rw [assign] at first_eq
          split at first_eq
          · split at first_eq
            · cases first_eq
              exact .inl rfl
            · cases first_eq
          · rw [create] at first_eq
            split at first_eq
            · rename_i full
              cases first_eq
              exact .inr ⟨rfl, Nat.le_antisymm within_limit full⟩
            · cases first_eq
      | ok first =>
          rcases first with ⟨middle, server⟩
          have frame := @assignAll_created agenda id job [request] within_limit
          rw [assignAll, first_eq] at frame
          rw [first_eq] at assigned
          dsimp only at assigned
          cases rest_eq : middle.assignAll id job rest with
          | mk last outcome =>
              rw [rest_eq] at assigned
              cases outcome with
              | ok servers => cases assigned
              | error refused =>
                  cases assigned
                  have limit_eq : middle.limit = agenda.limit := frame.1
                  rw [← limit_eq]
                  exact ih (limit_eq ▸ frame.2.2) rest_eq

/-- A suspension is refused because of the jobs there are, or because of how many there are. -/
theorem suspend_failure_cases {request : Request} (consistent : agenda.Consistent)
    (handedOut : agenda.HandedOut id request) (running : agenda.failure = none)
    (within_limit : agenda.created ≤ agenda.limit)
    (failed : (agenda.suspend id job requests).failure = some failure) :
    failure.kind = .structuralCycle ∨ (failure = .budgetExhausted agenda.limit ∧
      (agenda.suspend id job requests).created = agenda.limit) := by
  rcases handedOut with ⟨entry, live, -, -⟩
  have room := @assignAll_created agenda id job requests within_limit
  rcases @assignAll_frame agenda id job requests with ⟨entries, ready, active, frame⟩
  cases assigned : agenda.assignAll id job requests with
  | mk middle outcome =>
      rw [assigned] at room frame
      cases outcome with
      | error refused =>
          have suspend_eq : agenda.suspend id job requests = middle.fail refused := by
            rw [suspend, assigned]
          rw [suspend_eq] at failed ⊢
          have refused_eq : refused = failure := by
            rw [fail, show middle.failure = none from (congrArg Agenda.failure frame).trans running,
              Option.none_or] at failed
            exact Option.some.inj failed
          subst refused_eq
          refine (assignAll_failure within_limit assigned).imp_right fun exhausted => ⟨exhausted.1, ?_⟩
          exact exhausted.2
      | ok servers =>
          rcases assignAll_spec consistent (lt_created live) assigned with ⟨-, enlarged, absent, -⟩
          rw [suspend_eq assigned (enlarged.kept live) absent,
            (@parked_frame middle id entry job servers).2.2.2.2.1, enlarged.failure, running] at failed
          cases failed

/-- An agenda with no job handed out only hands out nothing once its root job is done. -/
theorem Scheduled.finished_of_next (scheduled : agenda.Scheduled [])
    (running : agenda.failure = none) (next_eq : agenda.next false = (after, none)) :
    after = agenda ∧ agenda.finished = true := by
  have after_running : after.failure = none := by
    have next_running := scheduled.next_running running
    rwa [next_eq] at next_running
  refine ⟨(next_none scheduled.consistent next_eq).resolve_right (absurd after_running), ?_⟩
  rw [next] at next_eq
  split at next_eq
  · rename_i ended
    refine ended.resolve_right fun failed => ?_
    rw [running] at failed
    cases failed
  · rw [if_neg Bool.false_ne_true] at next_eq
    cases ready_eq : agenda.ready with
    | nil => exact scheduled.stalled_finished ready_eq rfl
    | cons id rest =>
        rcases scheduled.consistent.queued (ready_eq ▸ List.mem_cons_self) with
          ⟨⟨stored, request, pending, waiters, waitingOn⟩, job, live, stored_eq, -⟩
        cases stored_eq
        rw [ready_eq, take, live] at next_eq
        cases next_eq

end Agenda

/-! ## Runs -/

namespace RunState

/--
A run of the standard rules between two steps that nobody cancels, on a memo whose groups keep their
order. If it has failed, then for want of jobs.
-/
structure Serene (ground : Ground) (catalog : Catalog) (config : SearchConfig) (root : GroupId)
    (goal : Goal) (limit : Nat) (state : RunState) : Prop where
  traced : state.Traced (Memo.context .standard catalog config) (Memo.Governed ground catalog)
    (Memo.Finished catalog) root goal limit
  paced : state.Paced limit
  uncancelled : state.progress.cancelled = false
  exists_root : root < state.progress.memo.groups.size
  exhausted : ∀ {failure}, state.agenda.failure = some failure →
    failure = .budgetExhausted limit ∧ state.agenda.created = limit

variable {ground : Ground} {catalog : Catalog} {config : SearchConfig} {root : GroupId}
  {goal : Goal} {limit : Nat} {state after : RunState}

theorem Serene.advance (serene : state.Serene ground catalog config root goal limit)
    {record : Option StepRecord}
    (advance_eq : state.advance (Memo.context .standard catalog config) = .ok (after, record)) :
    after.Serene ground catalog config root goal limit := by
  have discipline := @governed_discipline catalog config goal ground
  have invariant := serene.traced.invariant
  have grows := (invariant.advance discipline advance_eq).2
  have traced := serene.traced.advance discipline advance_eq
  have paced := serene.paced.advance discipline invariant advance_eq
  have exists_root := Nat.lt_of_lt_of_le serene.exists_root grows.size_le
  rw [RunState.advance, serene.uncancelled] at advance_eq
  cases next_eq : state.agenda.next false with
  | mk taken handed =>
      rw [next_eq] at advance_eq
      cases handed with
      | none =>
          cases advance_eq
          refine ⟨traced, paced, serene.uncancelled, exists_root, ?_⟩
          intro failure failed
          cases running : state.agenda.failure with
          | none =>
              have scheduled := serene.traced.reached.scheduled running
              rcases scheduled.finished_of_next running next_eq with ⟨rfl, -⟩
              cases running.symm.trans failed
          | some earlier =>
              rw [Agenda.next_of_failure running] at next_eq
              cases next_eq
              exact serene.exhausted failed
      | some pair =>
          rcases pair with ⟨id, job⟩
          simp only [bind, Except.bind, pure, Except.pure] at advance_eq
          split at advance_eq
          · cases advance_eq
          · rename_i stepped step_eq
            rcases stepped with ⟨progress, outcome⟩
            cases advance_eq
            rcases invariant.achieves discipline.toStable next_eq
              (fun _ _ => discipline.passed_over invariant.kept) step_eq with ⟨took, -⟩
            rcases invariant.step_succeeds serene.exists_root next_eq took step_eq with
              ⟨⟨step, rfl⟩, cancelled_eq⟩
            refine ⟨traced, paced, cancelled_eq.trans serene.uncancelled, exists_root, ?_⟩
            intro failure failed
            have running := took.failure.trans (Agenda.running_of_next next_eq)
            have lowered := took.outstanding (taken.outstanding - 1)
            cases step with
            | done =>
                rcases lowered.handedOut with ⟨entry, live, -⟩
                have completed := Agenda.complete_running live
                cases (completed.trans running).symm.trans failed
            | suspend next requests =>
                have lends : state.agenda.Lends Job.remaining job.request job
                    { taken with outstanding := taken.outstanding - 1 } :=
                  Agenda.lends_of_next (invariant.orderly
                    (Agenda.running_of_next next_eq)).consistent next_eq took _
                have limit_eq : taken.limit = limit := lends.limit.trans serene.paced.limited
                have created_le : taken.created ≤ taken.limit :=
                  (lends.created.trans_le serene.paced.created).trans_eq limit_eq.symm
                rcases Agenda.suspend_failure_cases lowered.consistent lowered.handedOut running
                  created_le failed with structural | ⟨exhausted, created_eq⟩
                · rcases traced.invariant.kept.descends with ⟨weight, descends⟩
                  exact (traced.circles failed structural (descends.acyclicBelow .logical root)).elim
                · exact ⟨exhausted.trans (congrArg _ limit_eq), created_eq.trans limit_eq⟩

/-- A run that steps no more has done its root job, or it has run out of jobs. -/
theorem Serene.rest (serene : state.Serene ground catalog config root goal limit) {last : RunState}
    (advance_eq : state.advance (Memo.context .standard catalog config) = .ok (last, none)) :
    last.agenda.finish = .ok () ∨ (last.agenda.finish = .error (.budgetExhausted limit) ∧
      last.agenda.created = limit) := by
  rw [RunState.advance, serene.uncancelled] at advance_eq
  split at advance_eq
  · rename_i agenda next_eq
    cases advance_eq
    dsimp only
    cases running : state.agenda.failure with
    | none =>
        have scheduled := serene.traced.reached.scheduled running
        rcases scheduled.finished_of_next running next_eq with ⟨rfl, finished⟩
        refine .inl ?_
        rw [Agenda.finish, running]
        exact if_pos finished
    | some failure =>
        rw [Agenda.next_of_failure running] at next_eq
        cases next_eq
        rcases serene.exhausted running with ⟨rfl, created_eq⟩
        refine .inr ⟨?_, created_eq⟩
        rw [Agenda.finish, running]
  · simp only [bind, Except.bind, pure, Except.pure] at advance_eq
    split at advance_eq
    · cases advance_eq
    · cases advance_eq

/-- What every step keeps holds until the last state, before a run comes to rest. -/
theorem StopsIn.keeps {context : Context} {Holds : RunState → Prop}
    (step : ∀ {before next : RunState} {record : Option StepRecord}, Holds before →
      before.advance context = .ok (next, record) → Holds next) {steps : Nat} {last : RunState}
    {records : List StepRecord} {outcome : Checked (RunState × List StepRecord)} (holds : Holds state)
    (stops : StopsIn context steps state outcome) (outcome_eq : outcome = .ok (last, records)) :
    ∃ before, Holds before ∧ before.advance context = .ok (last, none) := by
  induction stops generalizing records with
  | rest advance_eq =>
      cases outcome_eq
      exact ⟨_, holds, advance_eq⟩
  | dangle => cases outcome_eq
  | @step state next record steps outcome advance_eq _ ih =>
      cases outcome with
      | error reference => cases outcome_eq
      | ok driven =>
          cases outcome_eq
          exact ih (step holds advance_eq) rfl

end RunState

end Cascades
