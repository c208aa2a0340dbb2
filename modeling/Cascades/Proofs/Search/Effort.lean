import Cascades.Proofs.Search.Cycles
import Mathlib.Algebra.BigOperators.Intervals
import Mathlib.Algebra.Order.BigOperators.Group.Finset

/-!
# What the jobs of an agenda have yet to do

A job is resumed a few times only because of what it has already asked for. A group job may be
resumed more often, as its group grows, but whenever it asks for more, it asks for jobs that do not
exist yet. So if every job that is created pays for four steps, three are enough for the job itself,
and the fourth pays for the step that asked for it.
-/

namespace Cascades

/-- The number of steps that a job takes at most, not counting those that create other jobs. -/
def Job.remaining : Job → Nat
  | .group job => if job.goal = .implement ∧ job.exploreRequired = false then 2 else 1
  | .expression job =>
      1 + (if job.childrenScheduled then 0 else 1) + (if job.rulesScheduled then 0 else 1)
  | .applyRule _ => 1

theorem Job.remaining_pos (job : Job) : 1 ≤ job.remaining := by
  cases job with
  | group job =>
      rw [remaining]
      split
      · exact Nat.one_le_ofNat
      · exact Nat.le_refl 1
  | expression job =>
      rw [remaining]
      omega
  | applyRule job => exact Nat.le_refl 1

theorem Request.remaining_job_le (request : Request) : request.job.remaining ≤ 3 := by
  cases request with
  | group id goal =>
      rw [job, Job.remaining]
      split
      · omega
      · omega
  | expression id goal => exact Nat.le_refl 3
  | applyRule rule target => exact Nat.one_le_ofNat

namespace Agenda

/-- What the job of a number costs, if it is stored. -/
def due (agenda : Agenda) (cost : Job → Nat) (id : JobId) : Nat :=
  match (agenda.live? id).bind Entry.job with
  | some job => cost job
  | none => 0

/-- What all stored jobs cost. -/
def owed (agenda : Agenda) (cost : Job → Nat) : Nat :=
  ∑ id ∈ Finset.range agenda.created, agenda.due cost id

section Due

variable {cost : Job → Nat} {agenda after : Agenda} {id : JobId} {entry : Entry} {job : Job}

theorem due_of_job (live : agenda.live? id = some entry) (stored : entry.job = some job) :
    agenda.due cost id = cost job := by
  rw [due, live, Option.bind_some, stored]

theorem due_of_none (live : agenda.live? id = some entry) (job_none : entry.job = none) :
    agenda.due cost id = 0 := by
  rw [due, live, Option.bind_some, job_none]

theorem due_of_missing (missing : agenda.live? id = none) : agenda.due cost id = 0 := by
  rw [due, missing, Option.bind_none]

theorem due_congr {found : Entry} (live : agenda.live? id = some entry)
    (found_live : after.live? id = some found) (job_eq : found.job = entry.job) :
    after.due cost id = agenda.due cost id := by
  rw [due, due, live, found_live, Option.bind_some, Option.bind_some, job_eq]

variable (cost) in
/-- What is owed changes by as much as the only job that changes. -/
theorem owed_update (created : after.created = agenda.created) (inside : id < agenda.created)
    (others : ∀ other, other ≠ id → after.due cost other = agenda.due cost other) :
    after.owed cost + agenda.due cost id = agenda.owed cost + after.due cost id := by
  have id_mem : id ∈ Finset.range agenda.created := Finset.mem_range.mpr inside
  have rest : ∑ other ∈ (Finset.range agenda.created).erase id, after.due cost other =
      ∑ other ∈ (Finset.range agenda.created).erase id, agenda.due cost other :=
    Finset.sum_congr rfl fun other other_mem => others other (Finset.ne_of_mem_erase other_mem)
  rw [owed, owed, created, ← Finset.add_sum_erase _ _ id_mem, rest,
    ← Finset.add_sum_erase (Finset.range agenda.created) (fun other => agenda.due cost other) id_mem]
  omega

end Due

/-! ## Operations -/

section Operations

variable {cost : Job → Nat} {bound : Nat} {agenda middle after : Agenda} {id : JobId}
  {entry : Entry} {job : Job} {requests : List Request} {servers : List JobId}

@[simp]
theorem created_handedOut (rest : List JobId) :
    (agenda.handedOut id entry rest).created = agenda.created := by
  simp [created, handedOut, setEntry]

/-- A job that is handed out is no longer owed. -/
theorem owed_handedOut (live : agenda.live? id = some entry) (stored : entry.job = some job)
    (rest : List JobId) :
    (agenda.handedOut id entry rest).owed cost + cost job = agenda.owed cost := by
  have here := live?_handedOut live rest id
  rw [if_pos rfl] at here
  have updated := owed_update cost (created_handedOut rest) (lt_created live) fun other different => by
    rw [due, due, live?_handedOut live, if_neg (Ne.symm different)]
  rwa [due_of_job live stored, due_of_none here rfl, Nat.add_zero] at updated

/-- The books while a job is handed out, of which nobody is told any more. -/
structure Lends (cost : Job → Nat) (agenda : Agenda) (request : Request) (job : Job)
    (after : Agenda) : Prop where
  limit : after.limit = agenda.limit
  created : after.created = agenda.created
  owed : after.owed cost + cost job = agenda.owed cost
  stores : ∀ {other state}, agenda.Stores other state → other ≠ request → after.Stores other state

theorem lends_of_next (consistent : agenda.Consistent) {cancelled : Bool} {request : Request}
    (next_eq : agenda.next cancelled = (after, some (id, job)))
    (took : agenda.Took id request job after) (outstanding : Nat) :
    agenda.Lends cost request job { after with outstanding } := by
  rcases handedOut_of_next consistent next_eq with ⟨entry, rest, -, live, stored, rfl⟩
  refine ⟨rfl, created_handedOut rest, owed_handedOut live stored rest, ?_⟩
  rintro other state ⟨holder, found, found_live, request_eq, found_job⟩ different
  have taken_live := live?_handedOut live rest
  have holder_ne : id ≠ holder := by
    rintro rfl
    cases live.symm.trans found_live
    rcases took.handedOut with ⟨now, now_live, now_request, -⟩
    rw [taken_live, if_pos rfl] at now_live
    cases now_live
    exact different (request_eq.symm.trans now_request)
  have kept := taken_live holder
  rw [if_neg holder_ne, found_live] at kept
  exact ⟨holder, found, kept, request_eq, found_job⟩

theorem owed_complete (consistent : agenda.Consistent) (live : agenda.live? id = some entry)
    (job_none : entry.job = none) : (agenda.complete id).limit = agenda.limit ∧
      (agenda.complete id).created = agenda.created ∧
        (agenda.complete id).owed cost = agenda.owed cost := by
  have removed_live := live?_removed live
  rcases foldl_notify (owes_removed consistent live job_none)
    (by rw [removed_live, if_pos rfl]) with ⟨-, trimmed⟩
  rcases @foldl_notify_frame (agenda.removed id entry.request) id entry.waiters with
    ⟨entries, ready, told_eq, -⟩
  rw [complete_eq live]
  generalize entry.waiters.foldl (notify id) (agenda.removed id entry.request) = told at *
  have created_eq : told.created = agenda.created := by
    rw [trimmed.created]
    simp [created, removed, setEntry]
  have due_eq (other : JobId) : told.due cost other = agenda.due cost other := by
    by_cases here : id = other
    · subst here
      rw [due_of_none live job_none]
      exact due_of_missing (trimmed.missing (by rw [removed_live, if_pos rfl]))
    · cases before : agenda.live? other with
      | none =>
          rw [due_of_missing before]
          exact due_of_missing (trimmed.missing (by rw [removed_live, if_neg here, before]))
      | some found =>
          rcases trimmed.entries (by rw [removed_live, if_neg here, before]) with
            ⟨kept, kept_live, -, job_eq, -⟩
          exact due_congr before kept_live job_eq
  refine ⟨by rw [told_eq]; rfl, created_eq, ?_⟩
  change told.owed cost = agenda.owed cost
  rw [owed, owed, created_eq]
  exact Finset.sum_congr rfl fun other _ => due_eq other

/-- New jobs cost as much as was asked for at most. -/
theorem owed_enlarged (enlarged : Enlarged requests agenda middle)
    (bounded : ∀ request ∈ requests, cost request.job ≤ bound) :
    middle.owed cost ≤ agenda.owed cost + bound * (middle.created - agenda.created) := by
  have old : ∑ other ∈ Finset.range agenda.created, middle.due cost other = agenda.owed cost := by
    refine Finset.sum_congr rfl fun other other_mem => ?_
    cases before : agenda.live? other with
    | some found => exact due_congr before (enlarged.kept before) rfl
    | none =>
        rw [due_of_missing before]
        cases live : middle.live? other with
        | none => exact due_of_missing live
        | some found =>
            rcases enlarged.fresh live with same | ⟨beyond, -⟩
            · rw [before] at same
              cases same
            · exact (Nat.not_lt_of_le beyond (Finset.mem_range.mp other_mem)).elim
  have new : ∑ other ∈ Finset.Ico agenda.created middle.created, middle.due cost other ≤
      bound * (middle.created - agenda.created) := by
    rw [← Nat.card_Ico, Nat.mul_comm]
    refine Finset.sum_le_card_nsmul _ _ bound fun other other_mem => ?_
    cases live : middle.live? other with
    | none => exact (due_of_missing live).trans_le (Nat.zero_le bound)
    | some found =>
        rcases enlarged.fresh live with before | ⟨-, shape, asked, -⟩
        · exact (Nat.not_lt_of_le (Finset.mem_Ico.mp other_mem).1 (lt_created before)).elim
        · rw [due_of_job live (by rw [shape])]
          exact bounded found.request asked
  rw [owed, ← Finset.sum_range_add_sum_Ico (middle.due cost) enlarged.created_le, old]
  exact Nat.add_le_add_left new _

/-- A suspended job is owed again. -/
theorem owed_parked (live : agenda.live? id = some entry) (job_none : entry.job = none) :
    (agenda.parked id entry job servers).owed cost = agenda.owed cost + cost job := by
  have parked_live := @live?_parked agenda id entry job servers live
  have here := parked_live id
  rw [if_pos rfl] at here
  have updated := owed_update cost (@parked_frame agenda id entry job servers).2.1 (lt_created live)
    fun other different => by
      have found := parked_live other
      rw [if_neg (Ne.symm different)] at found
      cases before : agenda.live? other with
      | none =>
          rw [before] at found
          rw [due_of_missing before, due_of_missing found]
      | some old =>
          rw [before] at found
          exact due_congr before found rfl
  rwa [due_of_none live job_none, due_of_job here rfl, Nat.add_zero] at updated

theorem create_created {request : Request} {server : JobId}
    (created_eq : agenda.create request = .ok (after, server)) :
    after.created = agenda.created + 1 ∧ agenda.created < agenda.limit := by
  rw [create] at created_eq
  split at created_eq
  · cases created_eq
  · rename_i room
    cases created_eq
    exact ⟨by simp [created], Nat.lt_of_not_le room⟩

/-- The limit on jobs is kept, also if the requests are refused. -/
theorem assignAll_created (within_limit : agenda.created ≤ agenda.limit) :
    (agenda.assignAll id job requests).1.limit = agenda.limit ∧
      agenda.created ≤ (agenda.assignAll id job requests).1.created ∧
        (agenda.assignAll id job requests).1.created ≤ agenda.limit := by
  induction requests generalizing agenda with
  | nil => exact ⟨rfl, Nat.le_refl _, within_limit⟩
  | cons request rest ih =>
      rw [assignAll]
      split
      · exact ⟨rfl, Nat.le_refl _, within_limit⟩
      · rename_i middle server first_eq
        rcases assign_frame first_eq with ⟨entries, ready, active, middle_eq⟩
        have limit_eq : middle.limit = agenda.limit := by rw [middle_eq]
        have first : agenda.created ≤ middle.created ∧ middle.created ≤ middle.limit := by
          rw [assign] at first_eq
          split at first_eq
          · split at first_eq
            · cases first_eq
            · cases first_eq
              exact ⟨Nat.le_refl _, within_limit⟩
          · rcases create_created first_eq with ⟨created_eq, room⟩
            omega
        rcases ih first.2 with ⟨rest_limit, grows, bounded⟩
        exact ⟨rest_limit.trans limit_eq, Nat.le_trans first.1 grows, limit_eq ▸ bounded⟩

/--
What an operation of an agenda adds to the books: jobs within the limit, with a bound on what each of
them costs, and what the job that it stores costs.
-/
structure Charges (cost : Job → Nat) (bound : Nat) (agenda after : Agenda) (more : Nat) : Prop where
  limit : after.limit = agenda.limit
  created_le : agenda.created ≤ after.created
  within : after.created ≤ after.limit
  owed : after.failure = none →
    after.owed cost ≤ agenda.owed cost + more + bound * (after.created - agenda.created)

theorem charges_fail (within_limit : agenda.created ≤ agenda.limit) (failure : Failure) :
    Charges cost bound agenda (agenda.fail failure) 0 :=
  ⟨rfl, Nat.le_refl _, within_limit, fun running => (fail_ne_none agenda failure running).elim⟩

theorem charges_complete (consistent : agenda.Consistent) (live : agenda.live? id = some entry)
    (job_none : entry.job = none) (within_limit : agenda.created ≤ agenda.limit) :
    Charges cost bound agenda (agenda.complete id) 0 := by
  rcases @owed_complete cost agenda id entry consistent live job_none with
    ⟨limit_eq, created_eq, owed_eq⟩
  exact ⟨limit_eq, created_eq.ge, by omega, fun _ => by omega⟩

/-- A suspended job is charged, and so are the jobs that are created for it. -/
theorem charges_suspend (consistent : agenda.Consistent) {request : Request}
    (handedOut : agenda.HandedOut id request) (within_limit : agenda.created ≤ agenda.limit)
    (bounded : ∀ request ∈ requests, cost request.job ≤ bound) :
    Charges cost bound agenda (agenda.suspend id job requests) (cost job) ∧
      ((agenda.suspend id job requests).failure = none →
        ∀ asked ∈ requests, ¬ agenda.Live asked →
          agenda.created < (agenda.suspend id job requests).created) := by
  rcases handedOut with ⟨entry, live, -, job_none⟩
  have room := @assignAll_created agenda id job requests within_limit
  cases assigned : agenda.assignAll id job requests with
  | mk middle outcome =>
      rw [assigned] at room
      rcases room with ⟨limit_eq, created_le, room⟩
      cases outcome with
      | error failure =>
          have suspend_eq : agenda.suspend id job requests = middle.fail failure := by
            rw [suspend, assigned]
          rw [suspend_eq]
          have failed := fail_ne_none middle failure
          exact ⟨⟨limit_eq, created_le, room.trans_eq limit_eq.symm,
            fun running => (failed running).elim⟩, fun running => (failed running).elim⟩
      | ok servers =>
          rcases assignAll_spec consistent (lt_created live) assigned with
            ⟨-, enlarged, absent, -, served⟩
          have middle_live := enlarged.kept live
          have created_eq := (@parked_frame middle id entry job servers).2.1
          have parked_limit : (middle.parked id entry job servers).limit = middle.limit := by
            rcases @foldl_addWaiter_frame middle id servers with ⟨entries, told_eq, -⟩
            rw [parked, told_eq]
            split
            · rfl
            · rfl
          rw [suspend_eq assigned middle_live absent]
          refine ⟨⟨parked_limit.trans limit_eq, created_eq ▸ created_le, ?_, ?_⟩, ?_⟩
          · rw [created_eq, parked_limit, limit_eq]
            exact room
          · intro _
            have enlarged_owed := owed_enlarged enlarged bounded
            rw [owed_parked middle_live job_none, created_eq]
            omega
          · intro _ asked asked_mem unserved
            rcases served asked asked_mem with ⟨server, -, found, found_live, request_eq⟩
            rw [created_eq]
            rcases enlarged.fresh found_live with before | ⟨beyond, -⟩
            · exact (unserved ⟨server, found, before, request_eq⟩).elim
            · exact Nat.lt_of_le_of_lt beyond (lt_created found_live)

theorem next_none_created {cancelled : Bool} (next_eq : agenda.next cancelled = (after, none)) :
    after.limit = agenda.limit ∧ after.created = agenda.created := by
  have drained {left : Agenda} (jobs : List JobId) (take_eq : left.take jobs = (after, none)) :
      after.limit = left.limit ∧ after.created = left.created := by
    induction jobs with
    | nil =>
        rw [take] at take_eq
        split at take_eq
        · cases take_eq
          exact ⟨rfl, rfl⟩
        · cases take_eq
          exact ⟨rfl, rfl⟩
    | cons id rest ih =>
        rw [take] at take_eq
        split at take_eq
        · cases take_eq
        · exact ih take_eq
  rw [next] at next_eq
  split at next_eq
  · cases next_eq
    exact ⟨rfl, rfl⟩
  · split at next_eq
    · cases next_eq
      exact ⟨rfl, rfl⟩
    · exact drained agenda.ready next_eq

end Operations

end Agenda

/-! ## Steps -/

section Steps

variable {context : Context} {memo : Memo}

theorem Memo.Consistent.of_mem_logicalIds (consistent : memo.Consistent) {id : GroupId}
    {member : ExprId} (member_mem : member ∈ memo.logicalIds id) :
    ∃ expression, memo.expression? member = some expression ∧ expression.group = id := by
  rw [Memo.logicalIds] at member_mem
  split at member_mem
  · rename_i group found
    rcases consistent.logical found member_mem with ⟨expression, stored, group_eq, -⟩
    exact ⟨expression, stored, group_eq⟩
  · cases member_mem

namespace GroupJob

theorem step_of_job {job : GroupJob} {progress after : Progress} {outcome : Except Failure Step}
    (step_eq : (Job.group job).step context progress = .ok (after, outcome)) :
    job.step progress.memo = (after.memo, outcome) := by
  cases step_eq
  rfl

/-- A group job is suspended for a detour, or for members of its group it has not asked for yet. -/
theorem stepIn_suspends {job : GroupJob} {group : Group} {next : Job} {requests : List Request}
    {marks : Bool} (step_eq : job.stepIn group = (.suspend next requests, marks)) :
    marks = false ∧
      ((job.goal = .implement ∧ job.exploreRequired = false ∧
          next = .group { job with exploreRequired := true } ∧
          requests = [.group job.group .explore]) ∨
        ((job.goal = .implement → job.exploreRequired = true ∨ group.explored = true) ∧
          group.logical.drop job.dispatched ≠ [] ∧
          next = .group { job with
            exploreRequired := job.exploreRequired || job.goal == .implement
            dispatched := job.dispatched + (group.logical.drop job.dispatched).length } ∧
          requests = (group.logical.drop job.dispatched).map (.expression · job.goal))) := by
  rw [stepIn] at step_eq
  split at step_eq
  · cases step_eq
  · split at step_eq
    · rename_i first
      cases step_eq
      exact ⟨rfl, .inl ⟨first.1, by simpa using first.2.1, rfl, rfl⟩⟩
    · rename_i not_first
      dsimp only at step_eq
      split at step_eq
      · cases step_eq
      · rename_i fresh
        cases step_eq
        refine ⟨rfl, .inr ⟨?_, fresh, rfl, rfl⟩⟩
        intro implement
        by_contra neither
        rw [not_or] at neither
        exact not_first ⟨implement, neither⟩

theorem step_suspends {job : GroupJob} {after : Memo} {next : Job} {requests : List Request}
    (step_eq : job.step memo = (after, .ok (.suspend next requests))) :
    ∃ group, memo.group? job.group = some group ∧
      job.stepIn group = (.suspend next requests, false) := by
  rw [step] at step_eq
  split at step_eq
  · cases step_eq
  · rename_i group found
    split at step_eq
    · rename_i step stepped
      cases step_eq
      rcases stepIn_suspends stepped with ⟨absurd, -⟩
      cases absurd
    · rename_i step stepped
      cases step_eq
      exact ⟨group, found, stepped⟩

/-- A group job that asks for more has a step less left, or asks for members of its group. -/
theorem step_remaining {job : GroupJob} {after : Memo} {next : Job} {requests : List Request}
    (step_eq : job.step memo = (after, .ok (.suspend next requests))) :
    next.remaining < (Job.group job).remaining ∨
      (next.remaining ≤ (Job.group job).remaining ∧
        ∃ member ∈ memo.logicalIds job.group, .expression member job.goal ∈ requests) := by
  rcases step_suspends step_eq with ⟨group, found, stepped⟩
  rcases stepIn_suspends stepped with ⟨-, ⟨implement, first, rfl, rfl⟩ | ⟨-, fresh, rfl, rfl⟩⟩
  · left
    rw [Job.remaining, Job.remaining, if_neg (by simp), if_pos ⟨implement, first⟩]
    exact Nat.one_lt_ofNat
  · right
    refine ⟨?_, ?_⟩
    · rw [Job.remaining, if_neg]
      · exact (Job.group job).remaining_pos
      · rintro ⟨implement, required⟩
        simp [show job.goal = .implement from implement] at required
    · rcases List.exists_mem_of_ne_nil _ fresh with ⟨member, member_mem⟩
      refine ⟨member, ?_, List.mem_map.mpr ⟨member, member_mem, rfl⟩⟩
      rw [Memo.logicalIds, found]
      exact List.mem_of_mem_drop member_mem

/-- Members of a group are only asked to be implemented once the group has been explored. -/
theorem step_explored {Done : Memo → RuleId → ExprId → Prop} {job : GroupJob} {after : Memo}
    {next : Job} {requests : List Request}
    (progressed : Progressed context Done memo (fun _ => False) (.group job))
    (step_eq : job.step memo = (after, .ok (.suspend next requests))) {member : ExprId}
    (asked : .expression member .implement ∈ requests) : memo.Reached job.group .explore := by
  rcases step_suspends step_eq with ⟨group, found, stepped⟩
  rcases stepIn_suspends stepped with ⟨-, ⟨-, -, -, rfl⟩ | ⟨ready, -, -, rfl⟩⟩
  · cases List.mem_singleton.mp asked
  · rcases List.mem_map.mp asked with ⟨_, -, same⟩
    cases job with
    | mk id goal exploreRequired dispatched =>
        cases same
        rcases ready rfl with required | explored
        · exact (progressed.2.2 required rfl).resolve_right fun absurd => absurd
        · exact ⟨group, found, explored⟩

end GroupJob

namespace ExpressionJob

/-- An expression job is suspended for its children, for its group to be explored, or for rules. -/
theorem step_suspends {job : ExpressionJob} {next : Job} {requests : List Request}
    (step_eq : job.step context memo = .ok (.ok (.suspend next requests))) :
    ∃ expression, memo.expression? job.expression = some expression ∧
      ((job.childrenScheduled = false ∧ next = .expression { job with childrenScheduled := true } ∧
          requests = childRequests job.goal expression.children) ∨
        (job.rulesScheduled = false ∧
          ((job.goal = .implement ∧ ¬ memo.Reached expression.group .explore) ∨
            ∃ rules, applicableRules { job with childrenScheduled := true } context memo expression =
                .ok (.ok rules) ∧
              next = .expression { job with childrenScheduled := true, rulesScheduled := true } ∧
              requests = rules.map (.applyRule · job.expression)))) := by
  rcases job with ⟨id, goal, childrenScheduled, rulesScheduled⟩
  rw [step] at step_eq
  split at step_eq
  · cases step_eq
  · rename_i expression stored
    refine ⟨expression, stored, ?_⟩
    have for_rules (schedule_eq : scheduleRules ⟨id, goal, true, rulesScheduled⟩ context memo
        expression = .ok (.ok (.suspend next requests))) : rulesScheduled = false ∧
          ((goal = .implement ∧ ¬ memo.Reached expression.group .explore) ∨
            ∃ rules, applicableRules ⟨id, goal, true, rulesScheduled⟩ context memo expression =
                .ok (.ok rules) ∧ next = .expression ⟨id, goal, true, true⟩ ∧
              requests = rules.map (.applyRule · id)) := by
      rw [scheduleRules] at schedule_eq
      split at schedule_eq
      · cases schedule_eq
      · rename_i unscheduled
        refine ⟨by simpa using unscheduled, ?_⟩
        split at schedule_eq
        · cases schedule_eq
        · rename_i implement unexplored
          refine .inl ⟨implement, ?_⟩
          rintro ⟨group, found, reached⟩
          cases found.symm.trans unexplored
          cases reached
        · simp only [bind, Except.bind, pure, Except.pure] at schedule_eq
          split at schedule_eq
          · cases schedule_eq
          · rename_i chosen_eq
            split at schedule_eq
            · cases schedule_eq
            · cases schedule_eq
            · cases schedule_eq
              exact .inr ⟨_, chosen_eq, rfl, rfl⟩
    dsimp only at step_eq
    split at step_eq
    · exact .inr (for_rules step_eq)
    · exact .inr (for_rules step_eq)
    · cases step_eq
      exact .inl ⟨rfl, rfl, rfl⟩

/-- An expression job that asks for more has a step less left. -/
theorem step_remaining {job : ExpressionJob} {next : Job} {requests : List Request}
    (explored : ∀ expression, memo.expression? job.expression = some expression →
      job.goal = .implement → memo.Reached expression.group .explore)
    (step_eq : job.step context memo = .ok (.ok (.suspend next requests))) :
    next.remaining < (Job.expression job).remaining := by
  rcases step_suspends step_eq with ⟨expression, stored, ⟨unscheduled, rfl, -⟩ |
    ⟨unscheduled, ⟨implement, unexplored⟩ | ⟨rules, -, rfl, -⟩⟩⟩
  · simp [Job.remaining, unscheduled]
  · exact (unexplored (explored expression stored implement)).elim
  · simp [Job.remaining, unscheduled]

end ExpressionJob

/-- The step of a job is counted. -/
theorem Job.step_executed {job : Job} {progress after : Progress} {outcome : Except Failure Step}
    (step_eq : job.step context progress = .ok (after, outcome)) :
    after.executed = progress.executed + 1 := by
  cases job with
  | group job =>
      cases step_eq
      rfl
  | expression job =>
      rw [step] at step_eq
      simp only [bind, Except.bind, pure, Except.pure] at step_eq
      split at step_eq
      · cases step_eq
      · cases step_eq
        rfl
  | applyRule job =>
      rw [step, RuleJob.step] at step_eq
      simp only [bind, Except.bind, pure, Except.pure] at step_eq
      split at step_eq
      · cases step_eq
      · split at step_eq
        · cases step_eq
          rfl
        · split at step_eq
          · cases step_eq
            rfl
          · split at step_eq
            · cases step_eq
            · rw [RuleJob.run] at step_eq
              simp only [bind, Except.bind, pure, Except.pure] at step_eq
              split at step_eq
              · cases step_eq
              · split at step_eq
                · cases step_eq
                  rfl
                · cases step_eq
                  rfl
                · split at step_eq
                  · cases step_eq
                  · cases step_eq
                    rfl

end Steps

end Cascades
