import Cascades.Proofs.Search.Endings
import Cascades.Proofs.Search.Passing

/-!
# The limit on jobs as a cut-off

Nothing that a run does depends on how many jobs it may create, until it has to create one too many.
So a run that ends well with some limit is the same with every limit that allows for its jobs. With a
lower limit it takes the same steps, with the same effects on the memo, up to the first one that asks
for more jobs than are left, and that step is the last one.
-/

namespace Cascades

namespace Agenda

/-- The agenda with another limit on its jobs. -/
def withLimit (agenda : Agenda) (limit : Nat) : Agenda :=
  { agenda with limit }

/-- The agenda has failed because it has created as many jobs as it may. -/
structure Exhausted (limit : Nat) (agenda : Agenda) : Prop where
  failure : agenda.failure = some (.budgetExhausted limit)
  created : agenda.created = limit

variable {agenda after : Agenda} {limit : Nat} {id server : JobId} {job : Job} {request : Request}
  {requests : List Request} {servers : List JobId}

/-! ## Creating jobs -/

/-- At most one job is created for a request. -/
theorem assign_created (assigned : agenda.assign id job request = .ok (after, server)) :
    agenda.created ≤ after.created ∧ after.created ≤ agenda.created + 1 := by
  rw [assign] at assigned
  split at assigned
  · split at assigned
    · cases assigned
    · cases assigned
      exact ⟨Nat.le_refl _, Nat.le_succ _⟩
  · have created_eq := (create_created assigned).1
    omega

theorem assign_withLimit (assigned : agenda.assign id job request = .ok (after, server))
    (fits : after.created ≤ limit) :
    (agenda.withLimit limit).assign id job request = .ok (after.withLimit limit, server) := by
  rw [assign] at assigned
  rw [assign, show (agenda.withLimit limit).active? request = agenda.active? request from rfl,
    show (agenda.withLimit limit).waitsFor = agenda.waitsFor from rfl]
  split at assigned
  · split at assigned
    · cases assigned
    · rename_i allowed
      rw [if_neg allowed]
      cases assigned
      rfl
  · have created_eq := (create_created assigned).1
    have room : ¬ (agenda.withLimit limit).limit ≤ (agenda.withLimit limit).created := by
      change ¬ limit ≤ agenda.created
      omega
    rcases create_eq assigned with ⟨rfl, rfl⟩
    exact if_neg room

/-- A job too many is refused when the limit has been reached. -/
theorem assign_exhausted (assigned : agenda.assign id job request = .ok (after, server))
    (within : agenda.created ≤ limit) (crosses : limit < after.created) :
    agenda.created = limit ∧
      (agenda.withLimit limit).assign id job request = .error (.budgetExhausted limit) := by
  have full : agenda.created = limit := by
    have created_le := (assign_created assigned).2
    omega
  refine ⟨full, ?_⟩
  rw [assign] at assigned
  rw [assign, show (agenda.withLimit limit).active? request = agenda.active? request from rfl]
  split at assigned
  · split at assigned
    · cases assigned
    · cases assigned
      omega
  · exact if_pos full.ge

theorem created_le_assignAll (requests : List Request) :
    agenda.created ≤ (agenda.assignAll id job requests).1.created := by
  induction requests generalizing agenda with
  | nil => exact Nat.le_refl _
  | cons request rest ih =>
      rw [assignAll]
      split
      · exact Nat.le_refl _
      · rename_i first_eq
        exact (assign_created first_eq).1.trans ih

theorem assignAll_withLimit (assigned : agenda.assignAll id job requests = (after, .ok servers))
    (fits : after.created ≤ limit) :
    (agenda.withLimit limit).assignAll id job requests = (after.withLimit limit, .ok servers) := by
  induction requests generalizing agenda servers with
  | nil =>
      cases assigned
      rfl
  | cons request rest ih =>
      rw [assignAll] at assigned
      split at assigned
      · cases assigned
      · rename_i middle server first_eq
        cases rest_eq : middle.assignAll id job rest with
        | mk last outcome =>
            rw [rest_eq] at assigned
            cases outcome with
            | error failure => cases assigned
            | ok others =>
                cases assigned
                have rest_le := @created_le_assignAll middle id job rest
                rw [rest_eq] at rest_le
                rw [assignAll, assign_withLimit first_eq (rest_le.trans fits)]
                dsimp only
                rw [ih rest_eq]
                rfl

/-- The jobs that are left are created before a job too many is refused. -/
theorem assignAll_exhausted (assigned : agenda.assignAll id job requests = (after, .ok servers))
    (within : agenda.created ≤ limit) (crosses : limit < after.created) :
    ∃ middle, (agenda.withLimit limit).assignAll id job requests =
      (middle, .error (.budgetExhausted limit)) ∧ middle.created = limit := by
  induction requests generalizing agenda servers with
  | nil =>
      cases assigned
      omega
  | cons request rest ih =>
      rw [assignAll] at assigned
      split at assigned
      · cases assigned
      · rename_i middle server first_eq
        cases rest_eq : middle.assignAll id job rest with
        | mk last outcome =>
            rw [rest_eq] at assigned
            cases outcome with
            | error failure => cases assigned
            | ok others =>
                cases assigned
                rw [assignAll]
                by_cases fits : middle.created ≤ limit
                · rw [assign_withLimit first_eq fits]
                  rcases ih rest_eq fits with ⟨full, full_eq, created_eq⟩
                  dsimp only
                  rw [full_eq]
                  exact ⟨full, rfl, created_eq⟩
                · rcases assign_exhausted first_eq within (Nat.lt_of_not_le fits) with
                    ⟨created_eq, refused⟩
                  rw [refused]
                  exact ⟨_, rfl, created_eq⟩

/-! ## Operations of the agenda -/

theorem foldl_addWaiter_withLimit (servers : List JobId) :
    servers.foldl (addWaiter id) (agenda.withLimit limit) =
      (servers.foldl (addWaiter id) agenda).withLimit limit := by
  induction servers generalizing agenda with
  | nil => rfl
  | cons server rest ih =>
      have first : addWaiter id (agenda.withLimit limit) server =
          (addWaiter id agenda server).withLimit limit := by
        rw [addWaiter, addWaiter, show (agenda.withLimit limit).live? server = agenda.live? server
          from rfl]
        split <;> rfl
      rw [List.foldl_cons, first, ih, List.foldl_cons]

theorem foldl_notify_withLimit (owed : List JobId) :
    owed.foldl (notify id) (agenda.withLimit limit) =
      (owed.foldl (notify id) agenda).withLimit limit := by
  induction owed generalizing agenda with
  | nil => rfl
  | cons waiter rest ih =>
      have first : notify id (agenda.withLimit limit) waiter =
          (notify id agenda waiter).withLimit limit := by
        rw [notify, notify, show (agenda.withLimit limit).live? waiter = agenda.live? waiter
          from rfl]
        split
        · rfl
        · dsimp only
          split <;> rfl
      rw [List.foldl_cons, first, ih, List.foldl_cons]

theorem complete_withLimit :
    (agenda.withLimit limit).complete id = (agenda.complete id).withLimit limit := by
  rw [complete, complete, show (agenda.withLimit limit).live? id = agenda.live? id from rfl]
  cases agenda.live? id with
  | none => rfl
  | some entry =>
      have told := @foldl_notify_withLimit (agenda.removed id entry.request) limit id entry.waiters
      dsimp only
      rw [show ({ (agenda.withLimit limit).setEntry id none with
        active := (agenda.withLimit limit).active.filter
          (fun served => served.1 != entry.request) } : Agenda) =
            (agenda.removed id entry.request).withLimit limit from rfl, told]
      rfl

/-- Jobs are created for what a suspended job asks for, and for nothing else. -/
theorem suspend_created (agenda : Agenda) (id : JobId) (job : Job) (requests : List Request) :
    (agenda.suspend id job requests).created = (agenda.assignAll id job requests).1.created := by
  rw [suspend]
  split
  · rename_i assigned
    rw [assigned]
    rfl
  · rename_i middle servers assigned
    rcases @foldl_addWaiter_frame middle id servers with ⟨entries, told_eq, size_eq⟩
    rw [assigned, told_eq]
    dsimp only
    split
    · exact size_eq
    · split
      · exact Array.size_setIfInBounds.trans size_eq
      · exact Array.size_setIfInBounds.trans size_eq

theorem suspend_withLimit (running : (agenda.suspend id job requests).failure = none)
    (fits : (agenda.suspend id job requests).created ≤ limit) :
    (agenda.withLimit limit).suspend id job requests =
      (agenda.suspend id job requests).withLimit limit := by
  rw [suspend_created] at fits
  rw [suspend] at running ⊢
  rw [suspend]
  cases assigned : agenda.assignAll id job requests with
  | mk middle outcome =>
      rw [assigned] at running fits
      cases outcome with
      | error failure => exact (fail_ne_none _ failure running).elim
      | ok servers =>
          rw [assignAll_withLimit assigned fits]
          dsimp only
          rw [foldl_addWaiter_withLimit, show ((servers.foldl (addWaiter id) middle).withLimit
            limit).live? id = (servers.foldl (addWaiter id) middle).live? id from rfl]
          split
          · rfl
          · split <;> rfl

/-- A suspension that asks for a job too many ends the run. -/
theorem suspend_exhausted (started : agenda.failure = none)
    (running : (agenda.suspend id job requests).failure = none)
    (within : agenda.created ≤ limit)
    (crosses : limit < (agenda.suspend id job requests).created) :
    ((agenda.withLimit limit).suspend id job requests).Exhausted limit := by
  rw [suspend_created] at crosses
  rw [suspend] at running ⊢
  cases assigned : agenda.assignAll id job requests with
  | mk middle outcome =>
      rw [assigned] at running crosses
      cases outcome with
      | error failure => exact (fail_ne_none _ failure running).elim
      | ok servers =>
          rcases assignAll_exhausted assigned within crosses with ⟨full, full_eq, created_eq⟩
          rcases @assignAll_frame (agenda.withLimit limit) id job requests with
            ⟨entries, ready, active, frame⟩
          rw [full_eq] at frame ⊢
          refine ⟨?_, created_eq⟩
          rw [show full = _ from frame]
          simp [fail, withLimit, started]

theorem settle_withLimit {outcome : Except Failure Step}
    (running : (agenda.settle id outcome).failure = none)
    (fits : (agenda.settle id outcome).created ≤ limit) :
    (agenda.withLimit limit).settle id outcome = (agenda.settle id outcome).withLimit limit := by
  rcases outcome with failure | (_ | ⟨job, requests⟩)
  · exact (fail_ne_none _ failure running).elim
  · exact @complete_withLimit { agenda with outstanding := agenda.outstanding - 1 } limit id
  · exact @suspend_withLimit { agenda with outstanding := agenda.outstanding - 1 } limit id job
      requests running fits

theorem complete_created : (agenda.complete id).created = agenda.created := by
  rw [complete]
  split
  · rfl
  · rename_i entry _
    rcases @foldl_notify_frame (agenda.removed id entry.request) id entry.waiters with
      ⟨entries, ready, told_eq, size_eq⟩
    change (entry.waiters.foldl (notify id) (agenda.removed id entry.request)).entries.size = _
    rw [told_eq]
    exact size_eq.trans Array.size_setIfInBounds

theorem settle_created_le (outcome : Except Failure Step) :
    agenda.created ≤ (agenda.settle id outcome).created := by
  rcases outcome with failure | (_ | ⟨job, requests⟩)
  · exact Nat.le_refl _
  · exact (@complete_created { agenda with outstanding := agenda.outstanding - 1 } id).ge
  · rw [settle, suspend_created]
    exact @created_le_assignAll { agenda with outstanding := agenda.outstanding - 1 } id job requests

theorem settle_exhausted {outcome : Except Failure Step} (started : agenda.failure = none)
    (running : (agenda.settle id outcome).failure = none) (within : agenda.created ≤ limit)
    (crosses : limit < (agenda.settle id outcome).created) :
    ((agenda.withLimit limit).settle id outcome).Exhausted limit := by
  rcases outcome with failure | (_ | ⟨job, requests⟩)
  · exact (fail_ne_none _ failure running).elim
  · rw [settle, complete_created] at crosses
    exact (Nat.not_lt_of_le within crosses).elim
  · exact @suspend_exhausted { agenda with outstanding := agenda.outstanding - 1 } limit id job
      requests started running within crosses

theorem take_withLimit (ready : List JobId) :
    (agenda.withLimit limit).take ready =
      ((agenda.take ready).1.withLimit limit, (agenda.take ready).2) := by
  induction ready with
  | nil =>
      rw [take, take, show (agenda.withLimit limit).outstanding = agenda.outstanding from rfl]
      split <;> rfl
  | cons first rest ih =>
      rw [take, take, show (agenda.withLimit limit).live? first = agenda.live? first from rfl]
      split
      · rfl
      · exact ih

theorem next_withLimit (cancelled : Bool) :
    (agenda.withLimit limit).next cancelled =
      ((agenda.next cancelled).1.withLimit limit, (agenda.next cancelled).2) := by
  rw [next, next, show (agenda.withLimit limit).finished = agenda.finished from rfl,
    show (agenda.withLimit limit).failure = agenda.failure from rfl]
  split
  · rfl
  · split
    · rfl
    · exact take_withLimit agenda.ready

theorem take_created (ready : List JobId) : (agenda.take ready).1.created = agenda.created := by
  induction ready with
  | nil =>
      rw [take]
      split <;> rfl
  | cons first rest ih =>
      rw [take]
      split
      · exact Array.size_setIfInBounds
      · exact ih

theorem next_created (cancelled : Bool) : (agenda.next cancelled).1.created = agenda.created := by
  rw [next]
  split
  · rfl
  · split
    · rfl
    · exact take_created agenda.ready

end Agenda

/-! ## Runs -/

namespace RunState

/-- The state of a run with another limit on its jobs. -/
def withLimit (state : RunState) (limit : Nat) : RunState :=
  { state with agenda := state.agenda.withLimit limit }

variable {context : Context} {state next last : RunState} {limit steps : Nat}
  {record : Option StepRecord} {records : List StepRecord}
  {outcome : Checked (RunState × List StepRecord)}

theorem advance_created_le (advance_eq : state.advance context = .ok (next, record)) :
    state.agenda.created ≤ next.agenda.created := by
  have handed := @Agenda.next_created state.agenda state.progress.cancelled
  rw [advance] at advance_eq
  split at advance_eq
  · rename_i next_eq
    rw [next_eq] at handed
    cases advance_eq
    exact handed.ge
  · rename_i next_eq
    rw [next_eq] at handed
    simp only [bind, Except.bind, pure, Except.pure] at advance_eq
    split at advance_eq
    · cases advance_eq
    · cases advance_eq
      exact handed.ge.trans (Agenda.settle_created_le _)

/-- The limit does not matter to a step that creates no job too many. -/
theorem advance_withLimit (advance_eq : state.advance context = .ok (next, record))
    (running : next.agenda.failure = none) (fits : next.agenda.created ≤ limit) :
    (state.withLimit limit).advance context = .ok (next.withLimit limit, record) := by
  rw [advance] at advance_eq
  rw [advance, withLimit, Agenda.next_withLimit]
  cases next_eq : state.agenda.next state.progress.cancelled with
  | mk taken handed =>
      rw [next_eq] at advance_eq
      cases handed with
      | none =>
          cases advance_eq
          rfl
      | some pair =>
          rcases pair with ⟨id, job⟩
          simp only [bind, Except.bind, pure, Except.pure] at advance_eq ⊢
          split at advance_eq
          · cases advance_eq
          · rename_i step_eq
            cases advance_eq
            rw [Agenda.settle_withLimit running fits]
            rfl

/-- A step that creates a job too many has the same effects on the memo, but ends the run. -/
theorem advance_exhausted {record : StepRecord}
    (advance_eq : state.advance context = .ok (next, some record))
    (running : next.agenda.failure = none) (within : state.agenda.created ≤ limit)
    (crosses : limit < next.agenda.created) : ∃ agenda,
      (state.withLimit limit).advance context = .ok ({ next with agenda }, some record) ∧
        agenda.Exhausted limit := by
  have handed_created := @Agenda.next_created state.agenda state.progress.cancelled
  rw [advance] at advance_eq
  rw [advance, withLimit, Agenda.next_withLimit]
  cases next_eq : state.agenda.next state.progress.cancelled with
  | mk taken handed =>
      rw [next_eq] at advance_eq handed_created
      cases handed with
      | none => cases advance_eq
      | some pair =>
          rcases pair with ⟨id, job⟩
          simp only [bind, Except.bind, pure, Except.pure] at advance_eq ⊢
          split at advance_eq
          · cases advance_eq
          · rename_i stepped step_eq
            rcases stepped with ⟨progress, stepped⟩
            cases advance_eq
            have taken_running : taken.failure = none := by
              by_contra failed
              exact Agenda.settle_failure stepped failed running
            exact ⟨_, rfl, Agenda.settle_exhausted taken_running running
              (handed_created.trans_le within) crosses⟩

theorem StopsIn.created_le (stops : StopsIn context steps state outcome)
    (outcome_eq : outcome = .ok (last, records)) :
    state.agenda.created ≤ last.agenda.created := by
  let Holds (before : RunState) : Prop := state.agenda.created ≤ before.agenda.created
  have step {before next : RunState} {record : Option StepRecord} (holds : Holds before)
      (advance_eq : before.advance context = .ok (next, record)) : Holds next :=
    Nat.le_trans holds (advance_created_le advance_eq)
  have started : Holds state := Nat.le_refl _
  rcases stops.keeps step started outcome_eq with ⟨before, holds, advance_eq⟩
  exact Nat.le_trans holds (advance_created_le advance_eq)

/-- The limit does not matter to a run that creates no job too many. -/
theorem StopsIn.withLimit (stops : StopsIn context steps state outcome)
    (outcome_eq : outcome = .ok (last, records)) (running : last.agenda.failure = none)
    (fits : last.agenda.created ≤ limit) :
    StopsIn context steps (state.withLimit limit) (.ok (last.withLimit limit, records)) := by
  induction stops generalizing records with
  | rest advance_eq =>
      cases outcome_eq
      exact .rest (advance_withLimit advance_eq running fits)
  | dangle => cases outcome_eq
  | @step _ _ _ _ outcome advance_eq stops ih =>
      cases outcome with
      | error reference => cases outcome_eq
      | ok driven =>
          cases outcome_eq
          have first := advance_withLimit advance_eq (stops.running rfl running)
            ((stops.created_le rfl).trans fits)
          exact .step first (ih rfl)

/-- The memo grows until a run comes to rest. -/
theorem Invariant.grows {Kept : Memo → Prop} {Done : Memo → RuleId → ExprId → Prop}
    {root : GroupId} {goal : Goal} (discipline : Discipline context goal Kept Done)
    (invariant : state.Invariant context Kept Done root goal)
    (stops : StopsIn context steps state outcome) (outcome_eq : outcome = .ok (last, records)) :
    state.progress.memo.Grows last.progress.memo := by
  let Holds (before : RunState) : Prop :=
    before.Invariant context Kept Done root goal ∧
      state.progress.memo.Grows before.progress.memo
  have step {before next : RunState} {record : Option StepRecord} (holds : Holds before)
      (advance_eq : before.advance context = .ok (next, record)) : Holds next := by
    rcases holds.1.advance discipline advance_eq with ⟨next_invariant, grows⟩
    exact ⟨next_invariant, holds.2.trans grows⟩
  have started : Holds state := ⟨invariant, .refl _⟩
  rcases stops.keeps step started outcome_eq with ⟨before, holds, advance_eq⟩
  exact (step holds advance_eq).2

/-- With a lower limit, a run takes the same steps up to one that asks for a job too many. -/
theorem StopsIn.exhausted {Kept : Memo → Prop} {Done : Memo → RuleId → ExprId → Prop}
    {root : GroupId} {goal : Goal} (discipline : Discipline context goal Kept Done)
    (invariant : state.Invariant context Kept Done root goal)
    (stops : StopsIn context steps state outcome) (outcome_eq : outcome = .ok (last, records))
    (running : last.agenda.failure = none) (within : state.agenda.created ≤ limit)
    (crosses : limit < last.agenda.created) : ∃ taken cut early,
      StopsIn context taken (state.withLimit limit) (.ok (cut, early)) ∧
        cut.agenda.Exhausted limit ∧ early <+: records ∧
          cut.progress.memo.Grows last.progress.memo := by
  induction stops generalizing records with
  | rest advance_eq =>
      cases outcome_eq
      rw [advance] at advance_eq
      split at advance_eq
      · rename_i next_eq
        cases advance_eq
        have created_eq := (Agenda.next_none_created next_eq).2
        dsimp only at crosses
        omega
      · simp only [bind, Except.bind, pure, Except.pure] at advance_eq
        split at advance_eq <;> cases advance_eq
  | dangle => cases outcome_eq
  | @step state next record steps outcome advance_eq stops ih =>
      cases outcome with
      | error reference => cases outcome_eq
      | ok driven =>
          cases outcome_eq
          have next_running := stops.running rfl running
          have next_invariant := (invariant.advance discipline advance_eq).1
          by_cases fits : next.agenda.created ≤ limit
          · rcases ih next_invariant rfl fits with
              ⟨taken, cut, early, cut_stops, exhausted, early_prefix, grows⟩
            exact ⟨taken + 1, cut, record :: early,
              .step (advance_withLimit advance_eq next_running fits) cut_stops, exhausted,
              (List.prefix_cons_inj record).mpr early_prefix, grows⟩
          · rcases advance_exhausted advance_eq next_running within (Nat.lt_of_not_le fits) with
              ⟨agenda, cut_eq, exhausted⟩
            have rests : ({ next with agenda } : RunState).advance context =
                .ok ({ next with agenda }, none) := by
              rw [advance, Agenda.next_of_failure exhausted.failure]
              rfl
            have grows := next_invariant.grows discipline stops rfl
            exact ⟨1, { next with agenda }, [record], .step cut_eq (.rest rests), exhausted,
              (List.prefix_cons_inj record).mpr List.nil_prefix, grows⟩

end RunState

/-! ## Searches -/

namespace Memo

variable {memo : Memo} {rules : Rulebook} {catalog : Catalog} {config : SearchConfig}
  {root : GroupId} {full : RunReport}

section Limits

variable (built : memo.Built) (search_eq : memo.search rules catalog config root false = .ok full)
  (succeeded : full.outcome = .ok ()) {limit : Nat}
include built search_eq succeeded

/-- A limit that allows for the jobs of a search does not matter to it. -/
theorem search_allowed (fits : full.counts.jobsCreated ≤ limit) :
    memo.search rules catalog { config with maxJobs := limit } root false = .ok full := by
  rcases built.driven search_eq succeeded with
    ⟨agenda, steps, last, records, holds, seeded, stops, rfl⟩
  have running : last.agenda.failure = none := running_of_finish succeeded
  have agenda_eq := Agenda.seed_eq seeded
  have created_le : agenda.created ≤ last.agenda.created := stops.created_le rfl
  rw [agenda_eq] at created_le
  cases limit with
  | zero =>
      change last.agenda.created ≤ 0 at fits
      exact (Nat.not_succ_le_zero 0 (created_le.trans fits)).elim
  | succ room =>
      have limited : (Agenda.empty (room + 1)).seed (.group root config.goal) =
          .ok (agenda.withLimit (room + 1)) := by
        rw [agenda_eq]
        rfl
      have others := @Built.search_of_stops memo rules catalog { config with maxJobs := room + 1 } root
        built false holds
      have same := others limited (stops.withLimit rfl running fits)
      exact same

/-- A lower limit ends a search after as many jobs, on the way that the full search takes. -/
theorem search_exhausted (crosses : limit < full.counts.jobsCreated) : ∃ cut,
    memo.search rules catalog { config with maxJobs := limit } root false = .ok cut ∧
      cut.outcome = .error (.budgetExhausted limit) ∧ cut.counts.jobsCreated = limit ∧
        cut.memo.Grows full.memo ∧ cut.steps <+: full.steps := by
  rcases built.driven search_eq succeeded with
    ⟨agenda, steps, last, records, holds, seeded, stops, rfl⟩
  have running : last.agenda.failure = none := running_of_finish succeeded
  have invariant : RunState.Invariant (context rules catalog config) Built (fun _ _ _ => True) root
      config.goal { memo.initialState config.maxJobs false with agenda } := .seeded built seeded
  have discipline := built_discipline (context rules catalog config) config.goal
  have agenda_eq := Agenda.seed_eq seeded
  have grows := invariant.grows discipline stops rfl
  cases limit with
  | zero =>
      let cut : RunReport :=
        { (memo.initialState 0 false).report [] with outcome := .error (.budgetExhausted 0) }
      refine ⟨cut, ?_, rfl, rfl, grows, List.nil_prefix⟩
      rw [search, if_pos holds]
      rfl
  | succ room =>
      have limited : (Agenda.empty (room + 1)).seed (.group root config.goal) =
          .ok (agenda.withLimit (room + 1)) := by
        rw [agenda_eq]
        rfl
      have within : agenda.created ≤ room + 1 := by
        rw [agenda_eq]
        exact Nat.le_add_left 1 room
      rcases stops.exhausted discipline invariant rfl running within crosses with
        ⟨taken, cut, early, cut_stops, exhausted, early_prefix, cut_grows⟩
      have others := @Built.search_of_stops memo rules catalog { config with maxJobs := room + 1 } root
        built false holds
      refine ⟨cut.report early, others limited cut_stops, ?_, exhausted.created, cut_grows, early_prefix⟩
      rw [RunState.report, Agenda.finish, exhausted.failure]

/-- What a search with another limit has done when it ends without success is done in a successful one. -/
theorem grows_of_search {cut : RunReport}
    (cut_eq : memo.search rules catalog { config with maxJobs := limit } root false = .ok cut)
    (cut_failed : cut.outcome ≠ .ok ()) : cut.memo.Grows full.memo := by
  rcases Nat.lt_or_ge limit full.counts.jobsCreated with crosses | fits
  · rcases search_exhausted built search_eq succeeded crosses with ⟨same, same_eq, -, -, grows, -⟩
    cases cut_eq.symm.trans same_eq
    exact grows
  · cases cut_eq.symm.trans (search_allowed built search_eq succeeded fits)
    exact (cut_failed succeeded).elim

end Limits

/--
The limit on jobs is a pure cut-off. If a search succeeds with some limit, then every limit that
allows for the jobs it has created gives the same report. Every lower limit is reported as exhausted
after exactly as many jobs, and until then the search has taken the same steps: the memo that it
leaves behind grows into that of the full search.
-/
theorem search_cut_off (built : memo.Built)
    (search_eq : memo.search rules catalog config root false = .ok full)
    (succeeded : full.outcome = .ok ()) (limit : Nat) :
    (full.counts.jobsCreated ≤ limit →
      memo.search rules catalog { config with maxJobs := limit } root false = .ok full) ∧
    (limit < full.counts.jobsCreated → ∃ cut,
      memo.search rules catalog { config with maxJobs := limit } root false = .ok cut ∧
        cut.outcome = .error (.budgetExhausted limit) ∧ cut.counts.jobsCreated = limit ∧
          cut.memo.Grows full.memo ∧ cut.steps <+: full.steps) :=
  ⟨search_allowed built search_eq succeeded, search_exhausted built search_eq succeeded⟩

/-- The 25 jobs of a join of two tables fit a limit of 25, and the tenth ends a search of ten. -/
theorem search_cut_off_pair : ∃ full cut,
    PlanSpace.pairJoined.search .standard .empty ⟨100, none, true⟩ 2 false = .ok full ∧
      PlanSpace.pairJoined.search .standard .empty ⟨25, none, true⟩ 2 false = .ok full ∧
        PlanSpace.pairJoined.search .standard .empty ⟨10, none, true⟩ 2 false = .ok cut ∧
          full.outcome = .ok () ∧ full.counts.jobsCreated = 25 ∧
            cut.outcome = .error (.budgetExhausted 10) ∧ cut.memo.Grows full.memo := by
  rcases search_pairJoined with ⟨full, full_eq, succeeded, -, created_eq⟩
  have cut_off := search_cut_off built_pairJoined full_eq succeeded
  rcases (cut_off 10).2 (by omega) with ⟨cut, cut_eq, exhausted, -, grows, -⟩
  exact ⟨full, cut, full_eq, (cut_off 25).1 (by omega), cut_eq, succeeded, created_eq, exhausted,
    grows⟩

end Memo

end Cascades
