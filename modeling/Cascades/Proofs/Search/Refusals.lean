import Cascades.Proofs.Search.Cycles
import Mathlib.Data.Finset.Card

/-!
# Which suspensions are refused

Before a job waits for others, the agenda looks whether one of them is the job itself or waits for
it. In every state of an agenda, also after a failure, this search for a way back is exact: a
suspension for which there is room is refused if and only if it would close a circle of waiting jobs.
Otherwise the job waits for the jobs that serve its requests, and still no job waits for itself.
-/

namespace Cascades

open Relation

namespace Agenda

/-- A live job that serves a request is a given one or waits for it, directly or through others. -/
def Circular (agenda : Agenda) (id : JobId) (request : Request) : Prop :=
  ∃ server, agenda.Serves server request ∧ ReflTransGen agenda.Awaits server id

/-- The requests of a list that no live job serves, for which jobs have to be created. -/
def novel (agenda : Agenda) (requests : List Request) : Finset Request :=
  (requests.filter fun request => (agenda.active? request).isNone).toFinset

/-- What holds of every state of an agenda, also after a failure. -/
structure Enduring (agenda : Agenda) (out : List JobId) : Prop where
  consistent : agenda.Consistent
  handedOut : ∀ {id}, id ∈ out → ∃ entry, agenda.live? id = some entry ∧ entry.job = none
  nodup : out.Nodup
  acyclic : Acyclic agenda.Awaits

/-! ## Serving requests -/

section Assign

variable {agenda middle : Agenda} {id : JobId} {job : Job} {request : Request}
  {requests : List Request} {servers : List JobId} {failure : Failure}

theorem mem_novel (consistent : agenda.Consistent) :
    request ∈ agenda.novel requests ↔ request ∈ requests ∧ ¬ agenda.Live request := by
  rw [novel, List.mem_toFinset, List.mem_filter, Option.isNone_iff_eq_none]
  refine and_congr_right fun _ => ?_
  constructor
  · rintro inactive ⟨server, entry, live, rfl⟩
    rw [consistent.served live] at inactive
    cases inactive
  · intro unserved
    cases found : agenda.active? request with
    | none => rfl
    | some server => exact (unserved ⟨server, consistent.serves found⟩).elim

/-- The first of some requests is served by a live job, or by a new one, which uses up some room. -/
theorem novel_assign (consistent : agenda.Consistent) (live : id < agenda.created) {server : JobId}
    (assigned : agenda.assign id job request = .ok (middle, server)) :
    middle.limit = agenda.limit ∧ middle.created + (middle.novel requests).card ≤
      agenda.created + (agenda.novel (request :: requests)).card := by
  rcases assign_spec consistent live assigned with ⟨middle_consistent, enlarged, serves, -⟩
  have subset : middle.novel requests ⊆ agenda.novel (request :: requests) := by
    intro other other_mem
    rw [mem_novel middle_consistent] at other_mem
    rw [mem_novel consistent]
    refine ⟨List.mem_cons_of_mem request other_mem.1, ?_⟩
    rintro ⟨holder, holds⟩
    exact other_mem.2 ⟨holder, enlarged.serves holds⟩
  rw [assign] at assigned
  split at assigned
  · split at assigned
    · cases assigned
    · cases assigned
      exact ⟨rfl, Nat.add_le_add_left (Finset.card_le_card subset) _⟩
  · rename_i inactive
    have request_mem : request ∈ agenda.novel (request :: requests) := by
      simp [novel, inactive]
    have served : request ∉ middle.novel requests := fun novel_mem =>
      ((mem_novel middle_consistent).mp novel_mem).2 ⟨server, serves⟩
    have fewer : (middle.novel requests).card < (agenda.novel (request :: requests)).card :=
      Finset.card_lt_card ⟨subset, fun superset => served (superset request_mem)⟩
    have limit_eq : middle.limit = agenda.limit ∧ middle.created = agenda.created + 1 := by
      obtain ⟨-, rfl⟩ := create_eq assigned
      exact ⟨rfl, Array.size_push _⟩
    exact ⟨limit_eq.1, by omega⟩

/-- With room for all the jobs that have to be created, only a circle is refused. -/
theorem assignAll_room (consistent : agenda.Consistent) (live : id < agenda.created)
    (room : agenda.created + (agenda.novel requests).card ≤ agenda.limit)
    (assigned : agenda.assignAll id job requests = (middle, .error failure)) :
    failure.kind = .structuralCycle := by
  induction requests generalizing agenda with
  | nil => cases assigned
  | cons request rest ih =>
      rw [assignAll] at assigned
      cases first_eq : agenda.assign id job request with
      | error refused =>
          rw [first_eq] at assigned
          cases assigned
          rw [assign] at first_eq
          split at first_eq
          · split at first_eq
            · cases first_eq
              rfl
            · cases first_eq
          · rename_i inactive
            have request_mem : request ∈ middle.novel (request :: rest) := by
              simp [novel, inactive]
            have needed := Finset.card_pos.mpr ⟨request, request_mem⟩
            rw [create, if_neg (by omega)] at first_eq
            cases first_eq
      | ok first =>
          rcases first with ⟨next, server⟩
          rcases assign_spec consistent live first_eq with ⟨next_consistent, enlarged, -⟩
          rcases @novel_assign _ _ _ _ _ rest consistent live _ first_eq with ⟨limit_eq, no_more⟩
          rw [first_eq] at assigned
          dsimp only at assigned
          cases rest_eq : next.assignAll id job rest with
          | mk last outcome =>
              rw [rest_eq] at assigned
              cases outcome with
              | ok servers => cases assigned
              | error refused =>
                  cases assigned
                  refine ih next_consistent (Nat.lt_of_lt_of_le live enlarged.created_le) ?_ rest_eq
                  exact no_more.trans (room.trans_eq limit_eq.symm)

/-- Whether they are refused or not, requests lead to new jobs for some of them only. -/
theorem assignAll_enlarged (consistent : agenda.Consistent) (live : id < agenda.created) :
    (agenda.assignAll id job requests).1.Consistent ∧
      Enlarged requests agenda (agenda.assignAll id job requests).1 := by
  induction requests generalizing agenda with
  | nil => exact ⟨consistent, .refl _⟩
  | cons request rest ih =>
      rw [assignAll]
      split
      · exact ⟨consistent, .refl _⟩
      · rename_i next server first_eq
        rcases assign_spec consistent live first_eq with ⟨next_consistent, enlarged, -⟩
        rcases ih next_consistent (Nat.lt_of_lt_of_le live enlarged.created_le) with
          ⟨last_consistent, rest_enlarged⟩
        exact ⟨last_consistent, enlarged.trans rest_enlarged⟩

/-- The servers are listed in the order of the requests. -/
theorem assignAll_serves (consistent : agenda.Consistent) (live : id < agenda.created)
    (assigned : agenda.assignAll id job requests = (middle, .ok servers)) :
    List.Forall₂ middle.Serves servers requests := by
  induction requests generalizing agenda servers with
  | nil =>
      cases assigned
      exact .nil
  | cons request rest ih =>
      rw [assignAll] at assigned
      cases first_eq : agenda.assign id job request with
      | error refused =>
          rw [first_eq] at assigned
          cases assigned
      | ok first =>
          rcases first with ⟨next, server⟩
          rcases assign_spec consistent live first_eq with ⟨next_consistent, enlarged, serves, -⟩
          have next_live := Nat.lt_of_lt_of_le live enlarged.created_le
          rw [first_eq] at assigned
          dsimp only at assigned
          cases rest_eq : next.assignAll id job rest with
          | mk last outcome =>
              rw [rest_eq] at assigned
              cases outcome with
              | error refused => cases assigned
              | ok others =>
                  cases assigned
                  rcases assignAll_spec next_consistent next_live rest_eq with
                    ⟨-, rest_enlarged, -⟩
                  exact .cons (rest_enlarged.serves serves) (ih next_consistent next_live rest_eq)

/-- Requests that are served close no circle. -/
theorem assignAll_not_circular (consistent : agenda.Consistent) (live : id < agenda.created)
    (assigned : agenda.assignAll id job requests = (middle, .ok servers)) :
    ∀ request ∈ requests, ¬ agenda.Circular id request := by
  rcases assignAll_spec consistent live assigned with ⟨middle_consistent, enlarged, -, -, served⟩
  rintro request request_mem ⟨server, serves, path⟩
  rcases served request request_mem with ⟨same, same_mem, same_serves⟩
  rw [middle_consistent.unique (enlarged.serves serves) same_serves] at path
  exact assignAll_free consistent live assigned same same_mem path

end Assign

/-! ## Every state of an agenda -/

section Enduring

variable {agenda after : Agenda} {out : List JobId} {id : JobId} {job : Job}
  {requests : List Request}

theorem Consistent.fail (consistent : agenda.Consistent) (failure : Failure) :
    (agenda.fail failure).Consistent :=
  ⟨⟨consistent.serves, consistent.served, consistent.counted, consistent.idle,
    fun ready => (List.not_mem_nil ready).elim, List.nodup_nil⟩, consistent.converse⟩

theorem Enduring.fail (enduring : agenda.Enduring out) (failure : Failure) :
    (agenda.fail failure).Enduring out :=
  ⟨enduring.consistent.fail failure, enduring.handedOut, enduring.nodup, enduring.acyclic⟩

theorem Enduring.outstanding (enduring : agenda.Enduring out) (outstanding : Nat) :
    ({ agenda with outstanding } : Agenda).Enduring out :=
  ⟨enduring.consistent.outstanding _, enduring.handedOut, enduring.nodup, enduring.acyclic⟩

theorem Enduring.erase (enduring : agenda.Enduring out) : agenda.Enduring (out.erase id) :=
  ⟨enduring.consistent, fun other_mem => enduring.handedOut (List.mem_of_mem_erase other_mem),
    enduring.nodup.erase id, enduring.acyclic⟩

/-- An agenda that hands out nothing stays as it is or fails. -/
theorem next_rests (consistent : agenda.Consistent) {cancelled : Bool}
    (next_eq : agenda.next cancelled = (after, none)) :
    after = agenda ∨ ∃ failure, after = agenda.fail failure := by
  rw [next] at next_eq
  split at next_eq
  · cases next_eq
    exact .inl rfl
  · split at next_eq
    · cases next_eq
      exact .inr ⟨_, rfl⟩
    · cases ready_eq : agenda.ready with
      | nil =>
          have drained : ({ agenda with ready := [] } : Agenda) = agenda := by
            rw [← ready_eq]
          rw [ready_eq, take, drained] at next_eq
          split at next_eq
          · cases next_eq
            exact .inr ⟨_, rfl⟩
          · cases next_eq
            exact .inl rfl
      | cons first rest =>
          rcases consistent.queued (ready_eq ▸ List.mem_cons_self) with
            ⟨⟨stored, request, pending, waiters, waitingOn⟩, state, live, stored_eq, -⟩
          cases stored_eq
          rw [ready_eq, take, live] at next_eq
          cases next_eq

theorem Enduring.handOut (enduring : agenda.Enduring out) {cancelled : Bool}
    (next_eq : agenda.next cancelled = (after, some (id, job))) : after.Enduring (id :: out) := by
  rcases handedOut_of_next enduring.consistent next_eq with
    ⟨entry, rest, ready_eq, live, stored, rfl⟩
  have not_out : id ∉ out := by
    intro id_mem
    rcases enduring.handedOut id_mem with ⟨same, same_live, job_none⟩
    cases live.symm.trans same_live
    cases stored.symm.trans job_none
  refine ⟨enduring.consistent.handedOut ready_eq live, ?_,
    List.nodup_cons.mpr ⟨not_out, enduring.nodup⟩, ?_⟩
  · intro other other_mem
    rw [live?_handedOut live]
    split
    · exact ⟨_, rfl, rfl⟩
    · rename_i different
      exact enduring.handedOut ((List.mem_cons.mp other_mem).resolve_left (Ne.symm different))
  · rw [awaits_handedOut live]
    exact enduring.acyclic

theorem awaits_of_foldl_notify {done first second : JobId} (owed : List JobId)
    (awaits : (owed.foldl (notify done) agenda).Awaits first second) :
    agenda.Awaits first second := by
  induction owed generalizing agenda with
  | nil => exact awaits
  | cons waiter rest ih => exact awaits_of_notify (ih awaits)

/-- A job that is done leaves no new waits behind. -/
theorem awaits_of_complete {entry : Entry} (live : agenda.live? id = some entry)
    {first second : JobId} (awaits : (agenda.complete id).Awaits first second) :
    agenda.Awaits first second := by
  rw [complete_eq live] at awaits
  have told : (agenda.removed id entry.request).Awaits first second :=
    awaits_of_foldl_notify _ awaits
  rcases live_of_awaits told with ⟨found, found_live, second_mem⟩
  rw [live?_removed live] at found_live
  split at found_live
  · cases found_live
  · rw [Awaits, waitingOn_eq found_live]
    exact second_mem

theorem Enduring.complete (enduring : agenda.Enduring out) (id_mem : id ∈ out) :
    (agenda.settle id (.ok .done)).Enduring (out.erase id) := by
  rcases enduring.handedOut id_mem with ⟨entry, live, job_none⟩
  have lowered := enduring.outstanding (agenda.outstanding - 1)
  have lowered_live : ({ agenda with outstanding := agenda.outstanding - 1 } : Agenda).live? id =
      some entry := live
  refine ⟨(complete_spec lowered.consistent ⟨entry, lowered_live, rfl, job_none⟩).consistent, ?_,
    enduring.nodup.erase id, enduring.acyclic.mono (awaits_of_complete lowered_live)⟩
  intro other other_mem
  rw [enduring.nodup.mem_erase_iff] at other_mem
  rcases other_mem with ⟨different, other_mem⟩
  rcases lowered.handedOut other_mem with ⟨found, found_live, found_none⟩
  have removed_live := live?_removed lowered_live
  rcases foldl_notify (owes_removed lowered.consistent lowered_live job_none)
    (by rw [removed_live, if_pos rfl]) with ⟨-, trimmed⟩
  rcases trimmed.entries (by rw [removed_live, if_neg (Ne.symm different)]; exact found_live) with
    ⟨kept, kept_live, -, job_eq, -⟩
  rw [settle, complete_eq lowered_live]
  exact ⟨kept, kept_live, job_eq.trans found_none⟩

/-- What a suspension comes to: it is refused, or its job waits for the servers of its requests. -/
theorem suspend_cases (enduring : agenda.Enduring out) (id_mem : id ∈ out) (job : Job)
    (requests : List Request) : ∃ middle, Enlarged requests agenda middle ∧ middle.Consistent ∧
      ((∃ failure, agenda.assignAll id job requests = (middle, .error failure) ∧
          agenda.suspend id job requests = middle.fail failure) ∨
        ∃ entry servers, agenda.live? id = some entry ∧ entry.job = none ∧
          agenda.assignAll id job requests = (middle, .ok servers) ∧
            agenda.suspend id job requests = middle.parked id entry job servers) := by
  rcases enduring.handedOut id_mem with ⟨entry, live, job_none⟩
  rcases @assignAll_enlarged agenda id job requests enduring.consistent (lt_created live) with
    ⟨consistent, enlarged⟩
  cases assigned : agenda.assignAll id job requests with
  | mk middle outcome =>
      rw [assigned] at consistent enlarged
      refine ⟨middle, enlarged, consistent, ?_⟩
      cases outcome with
      | error failure =>
          refine .inl ⟨failure, rfl, ?_⟩
          rw [suspend, assigned]
      | ok servers =>
          rcases assignAll_spec enduring.consistent (lt_created live) assigned with
            ⟨-, -, absent, -⟩
          exact .inr ⟨entry, servers, live, job_none, rfl,
            suspend_eq assigned (enlarged.kept live) absent⟩

theorem Enduring.suspend (enduring : agenda.Enduring out) (id_mem : id ∈ out) (job : Job)
    (requests : List Request) : (agenda.suspend id job requests).Enduring (out.erase id) := by
  have still_out {middle : Agenda} (enlarged : Enlarged requests agenda middle) {other : JobId}
      (other_mem : other ∈ out) : ∃ entry, middle.live? other = some entry ∧ entry.job = none := by
    rcases enduring.handedOut other_mem with ⟨entry, live, job_none⟩
    exact ⟨entry, enlarged.kept live, job_none⟩
  rcases suspend_cases enduring id_mem job requests with ⟨middle, enlarged, consistent,
    ⟨failure, -, suspend_eq⟩ | ⟨entry, servers, live, job_none, assigned, suspend_eq⟩⟩
  · rw [suspend_eq]
    refine Enduring.fail ⟨consistent, ?_, enduring.nodup.erase id, ?_⟩ failure
    · exact fun other_mem => still_out enlarged (List.mem_of_mem_erase other_mem)
    · rw [enlarged.awaits]
      exact enduring.acyclic
  · have middle_live := enlarged.kept live
    rcases assignAll_spec enduring.consistent (lt_created live) assigned with
      ⟨-, -, absent, serve, -⟩
    have all_live : ∀ server ∈ servers, ∃ served, middle.live? server = some served := by
      intro server server_mem
      rcases serve server server_mem with ⟨_, _, found, found_live, -⟩
      exact ⟨found, found_live⟩
    rw [suspend_eq]
    refine ⟨consistent.parked middle_live job_none absent all_live, ?_, enduring.nodup.erase id, ?_⟩
    · intro other other_mem
      rw [enduring.nodup.mem_erase_iff] at other_mem
      rw [handedOut_parked_iff enlarged middle_live]
      exact ⟨other_mem.1, enduring.handedOut other_mem.2⟩
    · refine enduring.acyclic.insert
        (assignAll_free enduring.consistent (lt_created live) assigned) ?_
      intro first second awaits
      rw [← enlarged.awaits]
      exact awaits_of_parked middle_live awaits

/-- Every operation of an agenda keeps its books and creates no circle, whatever has happened. -/
theorem Reached.enduring {limit : Nat} {root : Request} (reached : Reached limit root agenda out) :
    agenda.Enduring out := by
  induction reached with
  | seed seeded =>
      have scheduled := scheduled_seed seeded
      exact ⟨scheduled.consistent, fun id_mem => scheduled.handedOut.mp id_mem, scheduled.nodup,
        scheduled.acyclic⟩
  | rest _ next_eq ih =>
      rcases next_rests ih.consistent next_eq with rfl | ⟨failure, rfl⟩
      · exact ih
      · exact ih.fail failure
  | handOut _ next_eq ih => exact ih.handOut next_eq
  | settle outcome _ id_mem ih =>
      rcases outcome with failure | (_ | ⟨job, requests⟩)
      · exact ((ih.outstanding _).erase).fail failure
      · exact ih.complete id_mem
      · exact (ih.outstanding _).suspend id_mem job requests

end Enduring

/-! ## Refusals -/

section Refusals

variable {agenda middle : Agenda} {out : List JobId} {id : JobId} {job : Job}
  {requests : List Request}

/-- What a suspension is refused for. -/
def refusal (agenda : Agenda) (id : JobId) (job : Job) (requests : List Request) :
    Option Failure :=
  match (agenda.assignAll id job requests).2 with
  | .error failure => some failure
  | .ok _ => none

/--
A suspended job waits for a live job for each of its requests, in their order. All jobs know who waits
for them, and the others wait as before.
-/
structure Records (agenda : Agenda) (id : JobId) (requests : List Request) (after : Agenda) :
    Prop where
  servers : List.Forall₂ after.Serves (after.waitingOn id) requests
  others : ∀ {other}, other ≠ id → after.waitingOn other = agenda.waitingOn other
  converse : ∀ waiter server,
    (after.waitingOn waiter).count server = (after.waitersOf server).count waiter

/-- The number of jobs handed out does not matter to those that are asked for. -/
theorem assign_outstanding (outstanding : Nat) (request : Request) :
    ({ agenda with outstanding } : Agenda).assign id job request =
      (agenda.assign id job request).map fun pair => ({ pair.1 with outstanding }, pair.2) := by
  rw [assign, assign, show ({ agenda with outstanding } : Agenda).active? request =
    agenda.active? request from rfl]
  split
  · rw [show ({ agenda with outstanding } : Agenda).waitsFor = agenda.waitsFor from rfl]
    split <;> rfl
  · rw [create, create]
    by_cases full : agenda.limit ≤ agenda.created
    · rw [if_pos full]
      exact if_pos full
    · rw [if_neg full]
      exact if_neg full

theorem assignAll_outstanding (outstanding : Nat) :
    ({ agenda with outstanding } : Agenda).assignAll id job requests =
      ({ (agenda.assignAll id job requests).1 with outstanding },
        (agenda.assignAll id job requests).2) := by
  induction requests generalizing agenda with
  | nil => rfl
  | cons request rest ih =>
      rw [assignAll, assignAll, assign_outstanding]
      cases agenda.assign id job request with
      | error failure => rfl
      | ok pair =>
          dsimp only [Except.map]
          rw [ih]

theorem suspend_failure_eq (enduring : agenda.Enduring out) (id_mem : id ∈ out) :
    (agenda.suspend id job requests).failure =
      agenda.failure.or (agenda.refusal id job requests) := by
  rcases suspend_cases enduring id_mem job requests with ⟨middle, enlarged, -,
    ⟨failure, assigned, suspend_eq⟩ | ⟨entry, servers, -, -, assigned, suspend_eq⟩⟩
  · rw [suspend_eq, refusal, assigned, fail, enlarged.failure]
  · rw [suspend_eq, refusal, assigned, (@parked_frame middle id entry job servers).2.2.2.2.1,
      enlarged.failure, Option.or_none]

/-- With room for the jobs that have to be created, a suspension is refused for circles only. -/
theorem refusal_circular (enduring : agenda.Enduring out) (id_mem : id ∈ out)
    (room : agenda.created + (agenda.novel requests).card ≤ agenda.limit) :
    (∃ request ∈ requests, agenda.Circular id request ∧
        agenda.refusal id job requests = some (.waitCycle job.text request.text)) ∨
      ((∀ request ∈ requests, ¬ agenda.Circular id request) ∧
        agenda.refusal id job requests = none) := by
  rcases enduring.handedOut id_mem with ⟨entry, live, -⟩
  rw [refusal]
  cases assigned : agenda.assignAll id job requests with
  | mk middle outcome =>
      cases outcome with
      | error failure =>
          have structural := assignAll_room enduring.consistent (lt_created live) room assigned
          rcases assignAll_refused enduring.consistent live assigned structural with
            ⟨request, request_mem, rfl, circular⟩
          exact .inl ⟨request, request_mem, circular, rfl⟩
      | ok servers =>
          exact .inr ⟨assignAll_not_circular enduring.consistent (lt_created live) assigned, rfl⟩

/-- A suspension that is not refused is recorded. -/
theorem Enduring.records (enduring : agenda.Enduring out) (id_mem : id ∈ out)
    (accepted : agenda.refusal id job requests = none) :
    agenda.Records id requests (agenda.suspend id job requests) := by
  rcases suspend_cases enduring id_mem job requests with ⟨middle, enlarged, -,
    ⟨failure, assigned, -⟩ | ⟨entry, servers, live, -, assigned, suspend_eq⟩⟩
  · rw [refusal, assigned] at accepted
    cases accepted
  · have middle_live := enlarged.kept live
    refine ⟨?_, ?_, (enduring.suspend id_mem job requests).consistent.converse⟩
    · rw [suspend_eq, waitingOn_parked middle_live, if_pos rfl]
      exact (assignAll_serves enduring.consistent (lt_created live) assigned).imp
        fun _ _ => (serves_parked_iff middle_live).mpr
    · intro other different
      rw [suspend_eq, waitingOn_parked middle_live, if_neg (Ne.symm different), enlarged.waitingOn]

/--
In every state of an agenda no job waits for itself, and no suspension changes that. With room for the
jobs that have to be created, a suspension is refused exactly if a request is served by the suspended
job itself or by a live job that waits for it, and then for such a circle. All other suspensions are
recorded.
-/
theorem suspend_exact {limit : Nat} {root : Request} (reached : Reached limit root agenda out)
    (id_mem : id ∈ out) (job : Job) (requests : List Request)
    (room : agenda.created + (agenda.novel requests).card ≤ agenda.limit) :
    Acyclic agenda.Awaits ∧ Acyclic (agenda.settle id (.ok (.suspend job requests))).Awaits ∧
      (agenda.settle id (.ok (.suspend job requests))).failure =
        agenda.failure.or (agenda.refusal id job requests) ∧
      ((∃ failure, agenda.refusal id job requests = some failure ∧
          failure.kind = .structuralCycle) ↔
        ∃ request ∈ requests, agenda.Circular id request) ∧
      ((∀ request ∈ requests, ¬ agenda.Circular id request) →
        agenda.refusal id job requests = none ∧
          agenda.Records id requests (agenda.settle id (.ok (.suspend job requests)))) := by
  have enduring := reached.enduring
  have lowered := enduring.outstanding (agenda.outstanding - 1)
  have same : ({ agenda with outstanding := agenda.outstanding - 1 } : Agenda).refusal id job
      requests = agenda.refusal id job requests := by
    rw [refusal, assignAll_outstanding, refusal]
  refine ⟨enduring.acyclic, (lowered.suspend id_mem job requests).acyclic, ?_, ?_, ?_⟩
  · rw [← same]
    exact suspend_failure_eq lowered id_mem
  · rcases @refusal_circular _ _ _ job _ enduring id_mem room with
      ⟨request, request_mem, circular, refused⟩ | ⟨free, accepted⟩
    · exact iff_of_true ⟨_, refused, rfl⟩ ⟨request, request_mem, circular⟩
    · rw [accepted]
      constructor
      · rintro ⟨failure, refused, -⟩
        cases refused
      · rintro ⟨request, request_mem, circular⟩
        exact (free request request_mem circular).elim
  · intro free
    rcases @refusal_circular _ _ _ job _ enduring id_mem room with
      ⟨request, request_mem, circular, -⟩ | ⟨-, accepted⟩
    · exact (free request request_mem circular).elim
    · have recorded := lowered.records id_mem (same.trans accepted)
      exact ⟨accepted, recorded.servers, recorded.others, recorded.converse⟩

/-- The last of three jobs may wait for a fourth one, but not for the first two, which wait for it. -/
theorem suspend_exact_joined : ∃ agenda, Reached 10 (.group 0 .explore) agenda [2] ∧
    agenda.waitingOn 0 = [1, 2] ∧ agenda.waitingOn 1 = [2] ∧
      (∃ request ∈ [.group 3 .explore, .group 0 .explore], agenda.Circular 2 request) ∧
        Acyclic (agenda.settle 2 (.ok (.suspend (.group ⟨2, .explore, true, 0⟩)
          [.group 3 .explore, .group 0 .explore]))).Awaits ∧
        agenda.Records 2 [.group 3 .explore] (agenda.settle 2
          (.ok (.suspend (.group ⟨2, .explore, true, 0⟩) [.group 3 .explore]))) := by
  have started : Reached 10 (.group 0 .explore) _ [] := .seed rfl
  have first : Reached 10 (.group 0 .explore) _ [0] :=
    @Reached.handOut _ _ _ _ _ false _ _ started rfl
  have suspended : Reached 10 (.group 0 .explore) _ [] :=
    @Reached.settle _ _ _ _ 0 (.ok (.suspend (.group ⟨0, .explore, true, 0⟩)
      [.group 1 .explore, .group 2 .explore])) first (by decide)
  have second : Reached 10 (.group 0 .explore) _ [1] :=
    @Reached.handOut _ _ _ _ _ false _ _ suspended rfl
  have third : Reached 10 (.group 0 .explore) _ [2, 1] :=
    @Reached.handOut _ _ _ _ _ false _ _ second rfl
  have joined : Reached 10 (.group 0 .explore) _ [2] :=
    @Reached.settle _ _ _ _ 1
      (.ok (.suspend (.group ⟨1, .explore, true, 0⟩) [.group 2 .explore])) third (by decide)
  rcases @suspend_exact _ _ 2 _ _ joined (by decide) (.group ⟨2, .explore, true, 0⟩)
    [.group 3 .explore, .group 0 .explore] (by decide) with ⟨-, acyclic, -, circular, -⟩
  rcases @suspend_exact _ _ 2 _ _ joined (by decide) (.group ⟨2, .explore, true, 0⟩)
    [.group 3 .explore] (by decide) with ⟨-, -, -, recorded_circular, recorded⟩
  refine ⟨_, joined, by decide, by decide, ?_, acyclic, ?_⟩
  · exact circular.mp ⟨_, by rfl, rfl⟩
  · refine (recorded fun request request_mem closed => ?_).2
    rcases recorded_circular.mpr ⟨request, request_mem, closed⟩ with ⟨failure, refused, -⟩
    cases refused

end Refusals

end Agenda

end Cascades
