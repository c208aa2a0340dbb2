import Cascades.Proofs.Search.Completion
import Cascades.Proofs.Search.Waiting

/-!
# What every operation of an agenda keeps

Every live job of an agenda that has not failed is ready, handed out, or waits for live jobs. The
jobs that wait for each other form no cycle, and every live job but the root is waited for. Handing
out, completion and suspension each keep all of this.
-/

namespace Cascades

open Relation

namespace Agenda

/-- A stored job that waits for nothing is ready. -/
def Prompt (agenda : Agenda) : Prop :=
  ∀ {id entry job}, agenda.live? id = some entry → entry.job = some job → entry.waitingOn = [] →
    id ∈ agenda.ready

/-- All live jobs but the root are waited for, and the root is live until the agenda is finished. -/
structure Crowned (agenda : Agenda) (root : JobId) : Prop where
  rooted : agenda.root = some root
  created : root < agenda.created
  asked : ∀ {id entry}, agenda.live? id = some entry → id ≠ root → entry.waiters ≠ []
  finished : agenda.finished = true ↔ agenda.live? root = none

/-- What holds of every state of an agenda without a failure. -/
structure Scheduled (agenda : Agenda) (out : List JobId) : Prop where
  consistent : agenda.Consistent
  handedOut : ∀ {id}, id ∈ out ↔ ∃ entry, agenda.live? id = some entry ∧ entry.job = none
  nodup : out.Nodup
  outstanding : agenda.outstanding = out.length
  prompt : agenda.Prompt
  acyclic : Acyclic agenda.Awaits
  crowned : ∃ root, agenda.Crowned root

/-! ## What an operation leaves unchanged -/

section Frames

variable {agenda after : Agenda} {done id : JobId} {job : Job}

theorem foldl_notify_frame (owed : List JobId) :
    ∃ entries ready, owed.foldl (notify done) agenda = { agenda with entries, ready } ∧
      entries.size = agenda.entries.size := by
  induction owed generalizing agenda with
  | nil => exact ⟨agenda.entries, agenda.ready, rfl, rfl⟩
  | cons waiter rest ih =>
      have step : ∃ entries ready, notify done agenda waiter = { agenda with entries, ready } ∧
          entries.size = agenda.entries.size := by
        rw [notify]
        split
        · exact ⟨agenda.entries, agenda.ready, rfl, rfl⟩
        · dsimp only
          split
          · exact ⟨_, _, rfl, Array.size_setIfInBounds⟩
          · exact ⟨_, _, rfl, Array.size_setIfInBounds⟩
      rcases step with ⟨entries, ready, step_eq, size_eq⟩
      rcases @ih { agenda with entries, ready } with ⟨others, queue, rest_eq, rest_size⟩
      exact ⟨others, queue, by rw [List.foldl_cons, step_eq, rest_eq], rest_size.trans size_eq⟩

theorem assign_frame {request : Request} {server : JobId}
    (assigned : agenda.assign id job request = .ok (after, server)) :
    ∃ entries ready active, after = { agenda with entries, ready, active } := by
  rw [assign] at assigned
  split at assigned
  · split at assigned
    · cases assigned
    · cases assigned
      exact ⟨_, _, _, rfl⟩
  · exact ⟨_, _, _, (create_eq assigned).2⟩

theorem assignAll_frame (requests : List Request) : ∃ entries ready active,
    (agenda.assignAll id job requests).1 = { agenda with entries, ready, active } := by
  induction requests generalizing agenda with
  | nil => exact ⟨agenda.entries, agenda.ready, agenda.active, rfl⟩
  | cons request rest ih =>
      rw [assignAll]
      split
      · exact ⟨agenda.entries, agenda.ready, agenda.active, rfl⟩
      · rename_i middle server first_eq
        rcases assign_frame first_eq with ⟨entries, ready, active, rfl⟩
        exact ih

theorem complete_failure (failed : agenda.failure ≠ none) :
    (agenda.complete id).failure ≠ none := by
  cases live : agenda.live? id with
  | none =>
      rw [complete, live]
      exact fail_ne_none agenda _
  | some entry =>
      rw [complete_eq live]
      rcases @foldl_notify_frame (agenda.removed id entry.request) id entry.waiters with
        ⟨entries, ready, told_eq, -⟩
      rw [told_eq]
      exact failed

theorem suspend_failure {requests : List Request} (failed : agenda.failure ≠ none) :
    (agenda.suspend id job requests).failure ≠ none := by
  rw [suspend]
  split
  · exact fail_ne_none _ _
  · rename_i middle servers assigned
    rcases @assignAll_frame agenda id job requests with ⟨entries, ready, active, middle_eq⟩
    rw [assigned] at middle_eq
    rcases @foldl_addWaiter_frame middle id servers with ⟨others, told_eq, -⟩
    dsimp only at middle_eq ⊢
    rw [told_eq, middle_eq]
    split
    · exact fail_ne_none _ _
    · dsimp only
      split
      · exact failed
      · exact failed

/-- A failure is never forgotten. -/
theorem settle_failure (outcome : Except Failure Step) (failed : agenda.failure ≠ none) :
    (agenda.settle id outcome).failure ≠ none := by
  unfold settle
  split
  · exact complete_failure failed
  · exact suspend_failure failed
  · exact fail_ne_none _ _

end Frames

/-! ## Seeding and handing out -/

section HandOut

variable {agenda after : Agenda} {id : JobId} {job : Job} {out : List JobId}

theorem seed_eq {limit : Nat} {request : Request}
    (seeded : (Agenda.empty limit).seed request = .ok agenda) :
    agenda = ⟨limit, #[some ⟨some request.job, request, 0, [], []⟩], [0], [(request, 0)], 0,
      some 0, false, none⟩ := by
  cases created : (Agenda.empty limit).create request with
  | error failure =>
      rw [seed, created] at seeded
      cases seeded
  | ok pair =>
      rcases pair with ⟨after, id⟩
      rcases create_eq created with ⟨rfl, rfl⟩
      rw [seed, created] at seeded
      cases seeded
      rfl

theorem scheduled_seed {limit : Nat} {request : Request}
    (seeded : (Agenda.empty limit).seed request = .ok agenda) : agenda.Scheduled [] := by
  have consistent := (seed_spec seeded).1
  have live_cases {id : JobId} {entry : Entry} (live : agenda.live? id = some entry) :
      id = 0 ∧ entry = ⟨some request.job, request, 0, [], []⟩ := by
    rw [seed_eq seeded, live?] at live
    cases id with
    | zero => exact ⟨rfl, (Option.some.inj live).symm⟩
    | succ id => cases live
  refine ⟨consistent, ?_, List.nodup_nil, by rw [seed_eq seeded]; rfl, ?_, ?_, 0, ?_⟩
  · intro id
    refine ⟨fun id_mem => (List.not_mem_nil id_mem).elim, ?_⟩
    rintro ⟨entry, live, job_none⟩
    rw [(live_cases live).2] at job_none
    cases job_none
  · intro id entry job live _ _
    rw [(live_cases live).1, seed_eq seeded]
    exact List.mem_cons_self
  · intro id cycle
    rcases TransGen.head'_iff.mp cycle with ⟨server, awaits, -⟩
    rcases live_of_awaits awaits with ⟨entry, live, server_mem⟩
    rw [(live_cases live).2] at server_mem
    cases server_mem
  · rw [seed_eq seeded]
    refine ⟨rfl, Nat.one_pos, ?_, by simp [live?]⟩
    intro id entry live different
    rw [← seed_eq seeded] at live
    exact (different (live_cases live).1).elim

/-- Handing out changes no list of waiting or awaited jobs. -/
theorem awaits_handedOut {entry : Entry} (live : agenda.live? id = some entry) (rest : List JobId) :
    (agenda.handedOut id entry rest).Awaits = agenda.Awaits := by
  funext waiter server
  rw [Awaits, Awaits, waitingOn_handedOut live]

theorem Scheduled.handOut (scheduled : agenda.Scheduled out) {cancelled : Bool}
    (next_eq : agenda.next cancelled = (after, some (id, job))) : after.Scheduled (id :: out) := by
  rcases handedOut_of_next scheduled.consistent next_eq with
    ⟨entry, rest, ready_eq, live, stored, rfl⟩
  have after_live := live?_handedOut live rest
  have not_out : id ∉ out := by
    intro id_mem
    rcases scheduled.handedOut.mp id_mem with ⟨same, same_live, job_none⟩
    rw [live] at same_live
    cases same_live
    rw [stored] at job_none
    cases job_none
  refine ⟨scheduled.consistent.handedOut ready_eq live, ?_,
    List.nodup_cons.mpr ⟨not_out, scheduled.nodup⟩, ?_, ?_, ?_, ?_⟩
  · intro other
    rw [List.mem_cons, scheduled.handedOut, after_live]
    by_cases here : id = other
    · simp [here]
    · simp [here, Ne.symm here]
  · rw [List.length_cons, ← scheduled.outstanding]
    rfl
  · intro other found state found_live found_stored idle
    rw [after_live] at found_live
    split at found_live
    · cases found_live
      cases found_stored
    · rename_i different
      have other_mem := scheduled.prompt found_live found_stored idle
      rw [ready_eq] at other_mem
      exact (List.mem_cons.mp other_mem).resolve_left (Ne.symm different)
  · rw [awaits_handedOut live]
    exact scheduled.acyclic
  · rcases scheduled.crowned with ⟨root, crowned⟩
    refine ⟨root, crowned.rooted, ?_, ?_, ?_⟩
    · simpa [created, Agenda.handedOut, setEntry] using crowned.created
    · intro other found found_live different
      rcases live?_of_handedOut live found_live with ⟨before, before_live, -, -, waiters, -⟩
      rw [waiters]
      exact crowned.asked before_live different
    · refine crowned.finished.trans ?_
      rw [after_live]
      by_cases here : id = root
      · simp [← here, live]
      · simp [here]

end HandOut

/-! ## Completion -/

section Complete

variable {agenda : Agenda} {done waiter id : JobId} {entry : Entry}

theorem awaits_of_notify {first second : JobId}
    (awaits : (notify done agenda waiter).Awaits first second) : agenda.Awaits first second := by
  cases live : agenda.live? waiter with
  | none =>
      rw [notify, live] at awaits
      exact awaits
  | some entry =>
      rw [Awaits, waitingOn_notify live] at awaits
      split at awaits
      · rename_i here
        rw [Awaits, ← here, waitingOn_eq live]
        exact List.mem_of_mem_erase awaits
      · exact awaits

/-- Whoever is told of the last job it waits for becomes ready. -/
theorem Prompt.notify {rest : List JobId} (prompt : agenda.Prompt)
    (owes : agenda.Owes done (waiter :: rest)) : (notify done agenda waiter).Prompt := by
  rcases owes.waits with ⟨entry, live, waits⟩
  have told := owes.notify live waits
  have kept {other : JobId} (other_mem : other ∈ agenda.ready) :
      other ∈ (Agenda.notify done agenda waiter).ready := by
    rw [notify_eq live]
    split
    · exact List.mem_append_left _ other_mem
    · exact other_mem
  intro other found job found_live stored idle
  have counted := told.counted found_live
  rw [live?_notify live] at found_live
  split at found_live
  · rename_i here
    cases found_live
    rw [idle, List.length_nil] at counted
    rw [notify_eq live, if_pos counted, ← here]
    exact List.mem_append_right _ List.mem_cons_self
  · exact kept (prompt found_live stored idle)

/-- What telling all that wait for a job adds to the balanced books. -/
theorem foldl_notify_prompt {owed : List JobId} (owes : agenda.Owes done owed)
    (prompt : agenda.Prompt) :
    (owed.foldl (notify done) agenda).Prompt ∧
      (∀ other, (owed.foldl (notify done) agenda).waitersOf other = agenda.waitersOf other) ∧
      ∀ {first second}, (owed.foldl (notify done) agenda).Awaits first second →
        agenda.Awaits first second := by
  induction owed generalizing agenda with
  | nil => exact ⟨prompt, fun _ => rfl, fun awaits => awaits⟩
  | cons waiter rest ih =>
      rcases owes.waits with ⟨entry, live, waits⟩
      rcases ih (owes.notify live waits) (prompt.notify owes) with
        ⟨rest_prompt, waiters_eq, awaits_of⟩
      exact ⟨rest_prompt, fun other => (waiters_eq other).trans (waitersOf_notify other),
        fun awaits => awaits_of_notify (awaits_of awaits)⟩

/-- A job is gone, and the other jobs are as they were, except that they do not wait for it. -/
structure Dropped (id : JobId) (agenda after : Agenda) : Prop where
  gone : after.live? id = none
  kept : ∀ {other entry}, other ≠ id → agenda.live? other = some entry →
    ∃ found, after.live? other = some found ∧ found.job = entry.job ∧ found.waiters = entry.waiters
  awaits : ∀ {first second}, after.Awaits first second → agenda.Awaits first second
  prompt : after.Prompt
  missing : ∀ {other}, agenda.live? other = none → after.live? other = none
  created : after.created = agenda.created
  outstanding : after.outstanding = agenda.outstanding
  root : after.root = agenda.root
  finished : after.finished = (agenda.finished || agenda.root == some id)

theorem Dropped.before {after : Agenda} (dropped : Dropped id agenda after) {other : JobId}
    {found : Entry} (found_live : after.live? other = some found) : other ≠ id ∧
      ∃ entry, agenda.live? other = some entry ∧ found.job = entry.job ∧
        found.waiters = entry.waiters := by
  have different : other ≠ id := by
    rintro rfl
    rw [dropped.gone] at found_live
    cases found_live
  refine ⟨different, ?_⟩
  cases before : agenda.live? other with
  | none =>
      rw [dropped.missing before] at found_live
      cases found_live
  | some entry =>
      rcases dropped.kept different before with ⟨same, same_live, facts⟩
      rw [found_live] at same_live
      cases same_live
      exact ⟨entry, rfl, facts⟩

theorem dropped_complete (consistent : agenda.Consistent) (prompt : agenda.Prompt)
    (live : agenda.live? id = some entry) (job_none : entry.job = none) :
    Dropped id agenda (agenda.complete id) := by
  have owes := owes_removed consistent live job_none
  have removed_live := live?_removed live
  have removed_prompt : (agenda.removed id entry.request).Prompt := by
    intro other found job found_live stored idle
    rw [removed_live] at found_live
    split at found_live
    · cases found_live
    · exact prompt found_live stored idle
  rcases foldl_notify owes (by rw [removed_live, if_pos rfl]) with ⟨-, trimmed⟩
  rcases foldl_notify_prompt owes removed_prompt with ⟨told_prompt, waiters_eq, awaits_of⟩
  rcases @foldl_notify_frame (agenda.removed id entry.request) id entry.waiters with
    ⟨entries, ready, told_eq, size_eq⟩
  rw [complete_eq live]
  generalize entry.waiters.foldl (notify id) (agenda.removed id entry.request) = told at *
  refine ⟨trimmed.missing (by rw [removed_live, if_pos rfl]), ?_, ?_, told_prompt, ?_, ?_, ?_, ?_, ?_⟩
  · intro other before different before_live
    have removed_before : (agenda.removed id entry.request).live? other = some before := by
      rw [removed_live, if_neg (Ne.symm different), before_live]
    rcases trimmed.entries removed_before with ⟨found, found_live, -, job_eq, -⟩
    have same := waiters_eq other
    rw [waitersOf_eq found_live, waitersOf_eq removed_before] at same
    exact ⟨found, found_live, job_eq, same⟩
  · intro first second awaits
    rcases live_of_awaits (awaits_of awaits) with ⟨found, found_live, second_mem⟩
    rw [removed_live] at found_live
    split at found_live
    · cases found_live
    · rw [Awaits, waitingOn_eq found_live]
      exact second_mem
  · intro other missing
    refine trimmed.missing ?_
    rw [removed_live, missing, ite_self]
  · rw [told_eq, created, size_eq]
    simp [created, removed, setEntry]
  · rw [told_eq]
    rfl
  · rw [told_eq]
    rfl
  · rw [told_eq]
    rfl

/-- The number of jobs handed out says nothing about the entries. -/
theorem Consistent.outstanding (consistent : agenda.Consistent) (outstanding : Nat) :
    ({ agenda with outstanding } : Agenda).Consistent :=
  ⟨⟨consistent.serves, consistent.served, consistent.counted, consistent.idle, consistent.queued,
    consistent.distinct⟩, consistent.converse⟩

theorem Crowned.outstanding {root : JobId} (crowned : agenda.Crowned root) (outstanding : Nat) :
    ({ agenda with outstanding } : Agenda).Crowned root :=
  ⟨crowned.rooted, crowned.created, crowned.asked, crowned.finished⟩

theorem Crowned.drop {after : Agenda} {root : JobId} (crowned : agenda.Crowned root)
    (dropped : Dropped id agenda after) : after.Crowned root where
  rooted := dropped.root.trans crowned.rooted
  created := dropped.created ▸ crowned.created
  asked := by
    intro other found found_live different
    rcases dropped.before found_live with ⟨-, entry, live, -, waiters_eq⟩
    rw [waiters_eq]
    exact crowned.asked live different
  finished := by
    rw [dropped.finished, crowned.rooted, Bool.or_eq_true, beq_iff_eq, Option.some.injEq,
      crowned.finished]
    constructor
    · rintro (missing | rfl)
      · exact dropped.missing missing
      · exact dropped.gone
    · intro gone
      by_cases here : root = id
      · exact .inr here
      · refine .inl ?_
        cases live : agenda.live? root with
        | none => rfl
        | some entry =>
            rcases dropped.kept here live with ⟨found, found_live, -⟩
            rw [gone] at found_live
            cases found_live

theorem Scheduled.complete {out : List JobId} (scheduled : agenda.Scheduled out)
    (id_mem : id ∈ out) : (agenda.settle id (.ok .done)).Scheduled (out.erase id) := by
  rcases scheduled.handedOut.mp id_mem with ⟨entry, live, job_none⟩
  have lowered := scheduled.consistent.outstanding (agenda.outstanding - 1)
  have dropped : Dropped id _ (agenda.settle id (.ok .done)) :=
    dropped_complete lowered scheduled.prompt live job_none
  refine ⟨(complete_spec lowered ⟨entry, live, rfl, job_none⟩).consistent, ?_,
    scheduled.nodup.erase id, ?_, dropped.prompt, scheduled.acyclic.mono dropped.awaits, ?_⟩
  · intro other
    rw [scheduled.nodup.mem_erase_iff, scheduled.handedOut]
    constructor
    · rintro ⟨different, before, before_live, none⟩
      rcases dropped.kept different before_live with ⟨found, found_live, job_eq, -⟩
      exact ⟨found, found_live, job_eq.trans none⟩
    · rintro ⟨found, found_live, none⟩
      rcases dropped.before found_live with ⟨different, before, before_live, job_eq, -⟩
      exact ⟨different, before, before_live, job_eq.symm.trans none⟩
  · rw [dropped.outstanding, List.length_erase_of_mem id_mem, ← scheduled.outstanding]
  · rcases scheduled.crowned with ⟨root, crowned⟩
    exact ⟨root, (crowned.outstanding _).drop dropped⟩

end Complete

/-! ## Suspension -/

section Suspend

variable {agenda middle after : Agenda} {id : JobId} {entry : Entry} {job : Job}
  {requests : List Request} {servers : List JobId}

theorem Prompt.create {request : Request} {server : JobId} (prompt : agenda.Prompt)
    (created : agenda.create request = .ok (after, server)) : after.Prompt := by
  have ready_eq : after.ready = agenda.ready ++ [agenda.created] := by
    rcases create_eq created with ⟨-, rfl⟩
    rfl
  intro other found state found_live stored idle
  rw [live?_create created] at found_live
  rw [ready_eq]
  split at found_live
  · rename_i new
    exact List.mem_append_right _ (new ▸ List.mem_cons_self)
  · exact List.mem_append_left _ (prompt found_live stored idle)

theorem Prompt.assignAll (prompt : agenda.Prompt) :
    (agenda.assignAll id job requests).1.Prompt := by
  induction requests generalizing agenda with
  | nil => exact prompt
  | cons request rest ih =>
      rw [Agenda.assignAll]
      split
      · exact prompt
      · rename_i middle server first_eq
        refine ih ?_
        rw [assign] at first_eq
        split at first_eq
        · split at first_eq
          · cases first_eq
          · cases first_eq
            exact prompt
        · exact prompt.create first_eq

theorem Prompt.parked (prompt : agenda.Prompt) (live : agenda.live? id = some entry) :
    (agenda.parked id entry job servers).Prompt := by
  rcases @parked_frame agenda id entry job servers with ⟨-, -, -, -, -, ready_eq⟩
  intro other found state found_live stored idle
  rw [ready_eq]
  rcases live?_of_parked live found_live with ⟨before, before_live, -, here | elsewhere⟩
  · rcases here with ⟨rfl, -, waitingOn⟩
    rw [if_pos (waitingOn.symm.trans idle)]
    exact List.mem_append_right _ List.mem_cons_self
  · rcases elsewhere with ⟨-, job_eq, waitingOn⟩
    have before_mem := prompt before_live (job_eq.symm.trans stored) (waitingOn.symm.trans idle)
    split
    · exact List.mem_append_left _ before_mem
    · exact before_mem

theorem awaits_of_parked (live : agenda.live? id = some entry) {first second : JobId}
    (awaits : (agenda.parked id entry job servers).Awaits first second) :
    agenda.Awaits first second ∨ (first = id ∧ second ∈ servers) := by
  rw [Awaits, waitingOn_parked live] at awaits
  split at awaits
  · rename_i here
    exact .inr ⟨here.symm, awaits⟩
  · exact .inl awaits

/-- The suspended job is stored, and so are the new ones. -/
theorem handedOut_parked_iff (enlarged : Enlarged requests agenda middle)
    (live : middle.live? id = some entry) {other : JobId} :
    (∃ found, (middle.parked id entry job servers).live? other = some found ∧ found.job = none) ↔
      other ≠ id ∧ ∃ before, agenda.live? other = some before ∧ before.job = none := by
  constructor
  · rintro ⟨found, found_live, none⟩
    rcases live?_of_parked live found_live with ⟨before, before_live, -, here | elsewhere⟩
    · rw [here.2.1] at none
      cases none
    · rw [elsewhere.2.1] at none
      rcases enlarged.fresh before_live with old_live | ⟨-, shape, -⟩
      · exact ⟨Ne.symm elsewhere.1, before, old_live, none⟩
      · rw [shape] at none
        cases none
  · rintro ⟨different, before, before_live, none⟩
    rw [live?_parked live, if_neg (Ne.symm different), enlarged.kept before_live]
    exact ⟨_, rfl, none⟩

theorem outstanding_assignAll :
    (agenda.assignAll id job requests).1.outstanding = agenda.outstanding := by
  rcases @assignAll_frame agenda id job requests with ⟨entries, ready, active, middle_eq⟩
  rw [middle_eq]

theorem outstanding_parked :
    (agenda.parked id entry job servers).outstanding = agenda.outstanding := by
  rcases @foldl_addWaiter_frame agenda id servers with ⟨entries, told_eq, -⟩
  rw [Agenda.parked, told_eq]
  split
  · rfl
  · rfl

/-- New jobs are waited for by the job that asked for them. -/
theorem Crowned.suspend {root : JobId} (crowned : agenda.Crowned root)
    (enlarged : Enlarged requests agenda middle) (live : middle.live? id = some entry)
    (served : ∀ {other found}, middle.live? other = some found → agenda.live? other = none →
      other ∈ servers) (absent : id ∉ servers) :
    (middle.parked id entry job servers).Crowned root := by
  rcases @parked_frame middle id entry job servers with
    ⟨-, created_eq, root_eq, finished_eq, -, -⟩
  have parked_live := @live?_parked middle id entry job servers live
  refine ⟨root_eq.trans (enlarged.root.trans crowned.rooted), ?_, ?_, ?_⟩
  · rw [created_eq]
    exact Nat.lt_of_lt_of_le crowned.created enlarged.created_le
  · intro other found found_live different
    have middle_asked {before : Entry} (before_live : middle.live? other = some before) :
        before.waiters ≠ [] ∨ other ∈ servers := by
      cases old_live : agenda.live? other with
      | none => exact .inr (served before_live old_live)
      | some old =>
          rw [enlarged.kept old_live] at before_live
          cases before_live
          exact .inl (crowned.asked old_live different)
    rw [parked_live] at found_live
    split at found_live
    · rename_i here
      subst here
      cases found_live
      exact (middle_asked live).resolve_right absent
    · rcases Option.map_eq_some_iff.mp found_live with ⟨before, before_live, rfl⟩
      rcases middle_asked before_live with asked | server_mem
      · simp [awaitedBy, asked]
      · have counted := List.count_pos_iff.mpr server_mem
        simp [awaitedBy]
        omega
  · rw [finished_eq, enlarged.finished, crowned.finished, parked_live]
    cases root_live : agenda.live? root with
    | some old =>
        rw [enlarged.kept root_live]
        split <;> simp
    | none =>
        have missing : middle.live? root = none := by
          cases new_live : middle.live? root with
          | none => rfl
          | some new =>
              rcases enlarged.fresh new_live with old_live | ⟨beyond, -⟩
              · rw [root_live] at old_live
                cases old_live
              · exact (Nat.not_lt_of_le beyond crowned.created).elim
        have different : id ≠ root := by
          rintro rfl
          rw [live] at missing
          cases missing
        simp [missing, different]

/-- Every job that has just been created serves one of the requests. -/
theorem mem_servers_of_fresh (consistent : middle.Consistent)
    (enlarged : Enlarged requests agenda middle)
    (served : ∀ request ∈ requests, ∃ server ∈ servers, middle.Serves server request)
    {other : JobId} {found : Entry} (found_live : middle.live? other = some found)
    (missing : agenda.live? other = none) : other ∈ servers := by
  rcases enlarged.fresh found_live with old_live | ⟨-, -, asked, -⟩
  · rw [missing] at old_live
    cases old_live
  · rcases served _ asked with ⟨server, server_mem, serves⟩
    rwa [consistent.unique ⟨found, found_live, rfl⟩ serves]

theorem Scheduled.suspend {out : List JobId} (scheduled : agenda.Scheduled out) (id_mem : id ∈ out)
    (job : Job) (requests : List Request) :
    (agenda.settle id (.ok (.suspend job requests))).failure ≠ none ∨
      (agenda.settle id (.ok (.suspend job requests))).Scheduled (out.erase id) := by
  rcases scheduled.handedOut.mp id_mem with ⟨entry, live, job_none⟩
  let lowered : Agenda := { agenda with outstanding := agenda.outstanding - 1 }
  have lowered_consistent : lowered.Consistent := scheduled.consistent.outstanding _
  have settle_eq : agenda.settle id (.ok (.suspend job requests)) =
    lowered.suspend id job requests := rfl
  rw [settle_eq]
  cases assigned : lowered.assignAll id job requests with
  | mk middle outcome =>
      cases outcome with
      | error failure =>
          refine .inl ?_
          rw [Agenda.suspend, assigned]
          exact fail_ne_none middle failure
      | ok servers =>
          refine .inr ?_
          rcases assignAll_spec lowered_consistent (lt_created live) assigned with
            ⟨middle_consistent, enlarged, absent, serve, served⟩
          have free := assignAll_free lowered_consistent (lt_created live) assigned
          have middle_live := enlarged.kept live
          have middle_prompt : middle.Prompt := by
            have prompt := @Prompt.assignAll lowered id job requests scheduled.prompt
            rwa [assigned] at prompt
          have all_live : ∀ server ∈ servers, ∃ served, middle.live? server = some served := by
            intro server server_mem
            rcases serve server server_mem with ⟨_, _, found, found_live, -⟩
            exact ⟨found, found_live⟩
          rw [suspend_eq assigned middle_live absent]
          refine ⟨middle_consistent.parked middle_live job_none absent all_live, ?_,
            scheduled.nodup.erase id, ?_, middle_prompt.parked middle_live, ?_, ?_⟩
          · intro other
            rw [scheduled.nodup.mem_erase_iff, scheduled.handedOut]
            exact (handedOut_parked_iff enlarged middle_live).symm
          · have middle_outstanding := @outstanding_assignAll lowered id job requests
            rw [assigned] at middle_outstanding
            rw [outstanding_parked, middle_outstanding, List.length_erase_of_mem id_mem,
              ← scheduled.outstanding]
          · refine scheduled.acyclic.insert free ?_
            intro first second awaits
            rw [← show middle.Awaits = agenda.Awaits from enlarged.awaits]
            exact awaits_of_parked middle_live awaits
          · rcases scheduled.crowned with ⟨root, crowned⟩
            exact ⟨root, (crowned.outstanding _).suspend enlarged middle_live
              (mem_servers_of_fresh middle_consistent enlarged served) absent⟩

end Suspend

end Agenda

end Cascades
