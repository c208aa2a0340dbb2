import Cascades.Proofs.Search.Schedule

/-!
# The agenda never stalls

From its seed on, an agenda is asked for jobs and told the outcomes of those it has handed out, in
any order. As long as there are live jobs, one of them can go on: among finitely many jobs that wait
for each other without a cycle, one waits for nothing. Following the waiting jobs the other way ends
at the root job, which therefore is the last one to be completed.
-/

namespace Cascades

open Relation

namespace Agenda

/-- The states of an agenda for a root request, with the jobs handed out and not settled yet. -/
inductive Reached (limit : Nat) (request : Request) : Agenda → List JobId → Prop
  | seed {agenda : Agenda} : (empty limit).seed request = .ok agenda →
      Reached limit request agenda []
  | rest {agenda after : Agenda} {out : List JobId} {cancelled : Bool} :
      Reached limit request agenda out → agenda.next cancelled = (after, none) →
      Reached limit request after out
  | handOut {agenda after : Agenda} {out : List JobId} {cancelled : Bool} {id : JobId} {job : Job} :
      Reached limit request agenda out → agenda.next cancelled = (after, some (id, job)) →
      Reached limit request after (id :: out)
  | settle {agenda : Agenda} {out : List JobId} {id : JobId} (outcome : Except Failure Step) :
      Reached limit request agenda out → id ∈ out →
      Reached limit request (agenda.settle id outcome) (out.erase id)

section Reached

variable {limit : Nat} {request : Request} {agenda : Agenda} {out : List JobId}

/-- As long as there is no failure, every operation keeps the jobs scheduled. -/
theorem Reached.scheduled (reached : Reached limit request agenda out)
    (running : agenda.failure = none) : agenda.Scheduled out := by
  induction reached with
  | seed seeded => exact scheduled_seed seeded
  | @rest before after out cancelled _ next_eq ih =>
      have before_running : before.failure = none := by
        cases failed : before.failure with
        | none => rfl
        | some failure =>
            rw [next_of_failure failed] at next_eq
            cases next_eq
            rw [failed] at running
            cases running
      rcases next_none (ih before_running).consistent next_eq with rfl | failed
      · exact ih before_running
      · exact (failed running).elim
  | @handOut before after out cancelled id job _ next_eq ih =>
      exact (ih (running_of_next next_eq)).handOut next_eq
  | @settle before out id outcome _ id_mem ih =>
      have before_running : before.failure = none := by
        by_contra failed
        exact settle_failure outcome failed running
      rcases outcome with failure | (_ | ⟨job, requests⟩)
      · exact (fail_ne_none _ failure running).elim
      · exact (ih before_running).complete id_mem
      · exact ((ih before_running).suspend id_mem job requests).resolve_left (absurd running)

namespace Scheduled

variable (scheduled : agenda.Scheduled out)
include scheduled

/-- Once the root job is gone, no job is left. -/
theorem none_live (finished : agenda.finished = true) (id : JobId) : agenda.live? id = none := by
  rcases scheduled.crowned with ⟨root, crowned⟩
  have gone := crowned.finished.mp finished
  cases live : agenda.live? id with
  | none => rfl
  | some entry =>
      have path := awaited_by_root scheduled.consistent scheduled.acyclic crowned.asked live
      rcases reflTransGen_iff_eq_or_transGen.mp path with rfl | path
      · rw [live] at gone
        cases gone
      · rcases TransGen.head'_iff.mp path with ⟨server, awaits, -⟩
        rcases live_of_awaits awaits with ⟨found, found_live, -⟩
        rw [found_live] at gone
        cases gone

/-- If nothing is ready and nothing handed out, no job is left. -/
theorem stalled_finished (ready_eq : agenda.ready = []) (none_out : out = []) :
    agenda.finished = true := by
  rcases scheduled.crowned with ⟨root, crowned⟩
  rw [crowned.finished]
  cases live : agenda.live? root with
  | none => rfl
  | some entry =>
      rcases exists_idle scheduled.consistent scheduled.acyclic live with
        ⟨idle, found, found_live, waits_nothing⟩
      cases stored : found.job with
      | none =>
          have idle_mem := scheduled.handedOut.mpr ⟨found, found_live, stored⟩
          rw [none_out] at idle_mem
          cases idle_mem
      | some job =>
          have idle_mem := scheduled.prompt found_live stored waits_nothing
          rw [ready_eq] at idle_mem
          cases idle_mem

theorem next_running (running : agenda.failure = none) : (agenda.next false).1.failure = none := by
  rw [next]
  split
  · exact running
  · rename_i unfinished
    rw [if_neg Bool.false_ne_true]
    cases ready_eq : agenda.ready with
    | nil =>
        rw [take]
        split
        · rename_i none_out
          rw [scheduled.outstanding, List.length_eq_zero_iff] at none_out
          exact (unfinished (.inl (scheduled.stalled_finished ready_eq none_out))).elim
        · exact running
    | cons id rest =>
        rcases scheduled.consistent.queued (ready_eq ▸ List.mem_cons_self) with
          ⟨⟨stored, request, pending, waiters, waitingOn⟩, job, live, stored_eq, -⟩
        cases stored_eq
        rw [take, live]
        exact running

end Scheduled

/-- Every live job has one place, serves a request of its own, and is known to those it waits for. -/
structure Regular (agenda : Agenda) (out : List JobId) : Prop where
  placed : ∀ {id entry}, agenda.live? id = some entry →
    (agenda.ready.count id = 1 ∧ id ∉ out ∧ entry.pending = 0) ∨
      (id ∉ agenda.ready ∧ id ∈ out ∧ entry.pending = 0) ∨
        (id ∉ agenda.ready ∧ id ∉ out ∧ 0 < entry.pending)
  live : ∀ {id}, id ∈ agenda.ready ∨ id ∈ out → ∃ entry, agenda.live? id = some entry
  stored : ∀ {id entry}, agenda.live? id = some entry → (entry.job = none ↔ id ∈ out)
  counted : ∀ {id entry}, agenda.live? id = some entry → entry.pending = entry.waitingOn.length
  awaited : ∀ {id entry}, agenda.live? id = some entry → ∀ server ∈ entry.waitingOn,
    ∃ served, agenda.live? server = some served
  waiting : ∀ {id entry}, agenda.live? id = some entry → ∀ waiter ∈ entry.waiters,
    ∃ waits, agenda.live? waiter = some waits
  converse : ∀ waiter server,
    (agenda.waitingOn waiter).count server = (agenda.waitersOf server).count waiter
  unique : ∀ {first second entry other}, agenda.live? first = some entry →
    agenda.live? second = some other → entry.request = other.request → first = second

theorem Scheduled.regular (scheduled : agenda.Scheduled out) : agenda.Regular out := by
  have consistent := scheduled.consistent
  have stored {id : JobId} {entry : Entry} (live : agenda.live? id = some entry) :
      entry.job = none ↔ id ∈ out := by
    rw [scheduled.handedOut]
    constructor
    · exact fun job_none => ⟨entry, live, job_none⟩
    · rintro ⟨same, same_live, job_none⟩
      rw [live] at same_live
      cases same_live
      exact job_none
  refine ⟨?_, ?_, stored, consistent.counted, ?_, ?_, consistent.converse, ?_⟩
  · intro id entry live
    have counted := consistent.counted live
    cases job_eq : entry.job with
    | none =>
        have not_ready : id ∉ agenda.ready := fun id_mem => (consistent.of_ready live id_mem).1 job_eq
        rw [consistent.idle live job_eq] at counted
        exact .inr (.inl ⟨not_ready, (stored live).mp job_eq, counted⟩)
    | some job =>
        have not_out : id ∉ out := fun id_mem => by
          rw [(stored live).mpr id_mem] at job_eq
          cases job_eq
        by_cases idle : entry.waitingOn = []
        · rw [idle] at counted
          exact .inl ⟨List.count_eq_one_of_mem consistent.distinct
            (scheduled.prompt live job_eq idle), not_out, counted⟩
        · refine .inr (.inr ⟨fun id_mem => idle (consistent.of_ready live id_mem).2, not_out, ?_⟩)
          rw [counted]
          exact List.length_pos_iff.mpr idle
  · rintro id (ready | handedOut)
    · rcases consistent.queued ready with ⟨entry, -, live, -⟩
      exact ⟨entry, live⟩
    · rcases scheduled.handedOut.mp handedOut with ⟨entry, live, -⟩
      exact ⟨entry, live⟩
  · intro id entry live server server_mem
    rcases consistent.awaited live server_mem with ⟨served, served_live, -⟩
    exact ⟨served, served_live⟩
  · intro id entry live waiter waiter_mem
    have counted := consistent.converse waiter id
    rw [waitersOf_eq live] at counted
    have waits : id ∈ agenda.waitingOn waiter := by
      rw [← List.count_pos_iff, counted]
      exact List.count_pos_iff.mpr waiter_mem
    exact live_of_mem_waitingOn waits
  · intro first second entry other live other_live same
    exact consistent.unique ⟨entry, live, same⟩ ⟨other, other_live, rfl⟩

/--
Without a failure every live job is accounted for. So a run that is not cancelled never stalls, and
when the root job is done no other job is left.
-/
theorem reached_regular (reached : Reached limit request agenda out)
    (running : agenda.failure = none) :
    agenda.Regular out ∧ (agenda.next false).1.failure = none ∧
      ∃ root, agenda.root = some root ∧ (agenda.finished = true ↔ agenda.live? root = none) ∧
        (agenda.live? root = none → out = [] ∧ ∀ id, agenda.live? id = none) := by
  have scheduled := reached.scheduled running
  rcases scheduled.crowned with ⟨root, crowned⟩
  refine ⟨scheduled.regular, scheduled.next_running running, root, crowned.rooted,
    crowned.finished, ?_⟩
  intro gone
  have none_live := scheduled.none_live (crowned.finished.mpr gone)
  refine ⟨List.eq_nil_iff_forall_not_mem.mpr ?_, none_live⟩
  intro id id_mem
  rcases scheduled.handedOut.mp id_mem with ⟨entry, live, -⟩
  rw [none_live] at live
  cases live

/-- Two jobs are handed out at once, and one of them comes to wait for the other one. -/
theorem reached_regular_joined : ∃ agenda,
    Reached 10 (.group 0 .explore) agenda [2] ∧ agenda.failure = none ∧
      agenda.waitingOn 0 = [1, 2, 1] ∧ agenda.waitersOf 2 = [0, 1] ∧ agenda.Regular [2] ∧
        (agenda.next false).1.failure = none := by
  let requests : List Request := [.group 1 .explore, .group 2 .explore, .group 1 .explore]
  have started : Reached 10 (.group 0 .explore) _ [] := .seed rfl
  have first : Reached 10 (.group 0 .explore) _ [0] :=
    @Reached.handOut _ _ _ _ _ false _ _ started rfl
  have suspended : Reached 10 (.group 0 .explore) _ [] :=
    @Reached.settle _ _ _ _ 0 (.ok (.suspend (.group ⟨0, .explore, true, 0⟩) requests)) first
      (by decide)
  have second : Reached 10 (.group 0 .explore) _ [1] :=
    @Reached.handOut _ _ _ _ _ false _ _ suspended rfl
  have third : Reached 10 (.group 0 .explore) _ [2, 1] :=
    @Reached.handOut _ _ _ _ _ false _ _ second rfl
  have joined : Reached 10 (.group 0 .explore) _ [2] :=
    @Reached.settle _ _ _ _ 1
      (.ok (.suspend (.group ⟨1, .explore, true, 0⟩) [.group 2 .explore])) third (by decide)
  rcases reached_regular joined (by decide +kernel) with ⟨regular, running, -⟩
  exact ⟨_, joined, by decide +kernel, by decide +kernel, by decide +kernel, regular, running⟩

end Reached

end Agenda

end Cascades
