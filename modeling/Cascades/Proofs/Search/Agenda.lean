import Cascades.Search.Agenda

/-!
# The agenda as a queue

In every state of an agenda without a failure, each live job is the only one for its request, the
lists of waiting jobs are the exact converse of the lists of awaited jobs, with the same
multiplicities, and only stored jobs that wait for nothing are ready.

Callers need less: which job is stored for a request, and which requests wait for which others. Each
operation is specified in these terms.
-/

namespace Cascades

namespace Agenda

/-- The jobs that wait for a job. -/
def waitersOf (agenda : Agenda) (id : JobId) : List JobId :=
  match agenda.live? id with
  | some entry => entry.waiters
  | none => []

/-- What holds of every entry, and of the ready jobs. -/
structure Sound (agenda : Agenda) : Prop where
  serves : ∀ {request id}, agenda.active? request = some id →
    ∃ entry, agenda.live? id = some entry ∧ entry.request = request
  served : ∀ {id entry}, agenda.live? id = some entry → agenda.active? entry.request = some id
  counted : ∀ {id entry}, agenda.live? id = some entry → entry.pending = entry.waitingOn.length
  idle : ∀ {id entry}, agenda.live? id = some entry → entry.job = none → entry.waitingOn = []
  queued : ∀ {id}, id ∈ agenda.ready →
    ∃ entry job, agenda.live? id = some entry ∧ entry.job = some job ∧ entry.waitingOn = []
  distinct : agenda.ready.Nodup

/-- Whoever waits for a job is known to it, once for each time it waits. -/
structure Consistent (agenda : Agenda) : Prop extends agenda.Sound where
  converse : ∀ waiter server,
    (agenda.waitingOn waiter).count server = (agenda.waitersOf server).count waiter

/-- A job is live and serves a request. -/
def Serves (agenda : Agenda) (id : JobId) (request : Request) : Prop :=
  ∃ entry, agenda.live? id = some entry ∧ entry.request = request

/-- Some live job serves a request. -/
def Live (agenda : Agenda) (request : Request) : Prop :=
  ∃ id, agenda.Serves id request

/-- The job for a request is live and not handed out. -/
def Stores (agenda : Agenda) (request : Request) (job : Job) : Prop :=
  ∃ id entry, agenda.live? id = some entry ∧ entry.request = request ∧ entry.job = some job

/-- The job for a request waits for the job for another one. -/
def Waits (agenda : Agenda) (waiter server : Request) : Prop :=
  ∃ id entry, agenda.live? id = some entry ∧ entry.request = waiter ∧
    ∃ awaited ∈ entry.waitingOn, agenda.Serves awaited server

/-- The job for a request is handed out. -/
def HandedOut (agenda : Agenda) (id : JobId) (request : Request) : Prop :=
  ∃ entry, agenda.live? id = some entry ∧ entry.request = request ∧ entry.job = none

/-- The root job, as long as it is live, serves a request. -/
def Rooted (agenda : Agenda) (request : Request) : Prop :=
  ∃ id, agenda.root = some id ∧ id < agenda.created ∧
    ∀ {entry}, agenda.live? id = some entry → entry.request = request

section Entries

variable {agenda : Agenda} {id : JobId} {entry : Entry}

theorem lt_created (live : agenda.live? id = some entry) : id < agenda.created := by
  rw [live?] at live
  by_cases inside : id < agenda.entries.size
  · exact inside
  · simp [Array.getElem?_eq_none (Nat.le_of_not_lt inside)] at live

theorem live?_setEntry (live : agenda.live? id = some entry) (replaced : Option Entry)
    (other : JobId) :
    (agenda.setEntry id replaced).live? other =
      if id = other then replaced else agenda.live? other := by
  have inside : id < agenda.entries.size := lt_created live
  rw [live?, setEntry, Array.getElem?_setIfInBounds, if_pos inside]
  split
  · rfl
  · rfl

theorem waitingOn_eq (live : agenda.live? id = some entry) :
    agenda.waitingOn id = entry.waitingOn := by
  rw [waitingOn, live]

theorem waitersOf_eq (live : agenda.live? id = some entry) :
    agenda.waitersOf id = entry.waiters := by
  rw [waitersOf, live]

theorem live_of_mem_waitersOf {waiter : JobId} (waiter_mem : waiter ∈ agenda.waitersOf id) :
    ∃ entry, agenda.live? id = some entry := by
  rw [waitersOf] at waiter_mem
  split at waiter_mem
  · rename_i entry live
    exact ⟨entry, live⟩
  · cases waiter_mem

theorem live_of_mem_waitingOn {server : JobId} (server_mem : server ∈ agenda.waitingOn id) :
    ∃ entry, agenda.live? id = some entry := by
  rw [waitingOn] at server_mem
  split at server_mem
  · rename_i entry live
    exact ⟨entry, live⟩
  · cases server_mem

theorem lookup_filter_ne (served : List (Request × JobId)) (request other : Request) :
    (served.filter (fun pair => pair.1 != request)).lookup other =
      if other = request then none else served.lookup other := by
  induction served with
  | nil => simp
  | cons pair rest ih =>
      rcases pair with ⟨first, server⟩
      by_cases here : first = request
      · subst here
        rw [List.filter_cons_of_neg (by simp), ih]
        split
        · rfl
        · rename_i different
          rw [List.lookup_cons, beq_false_of_ne different]
      · rw [List.filter_cons_of_pos (by simpa using here), List.lookup_cons, List.lookup_cons, ih]
        by_cases same : other = first
        · subst same
          simp [here]
        · rw [beq_false_of_ne same]

end Entries

namespace Sound

variable {agenda : Agenda} (sound : agenda.Sound)
include sound

/-- A ready job is stored, and waits for nothing. -/
theorem of_ready {id : JobId} {entry : Entry} (live : agenda.live? id = some entry)
    (ready : id ∈ agenda.ready) : entry.job ≠ none ∧ entry.waitingOn = [] := by
  rcases sound.queued ready with ⟨same, job, same_live, stored, idle⟩
  cases live.symm.trans same_live
  exact ⟨by simp [stored], idle⟩

/-- A job that was not ready becomes ready. -/
theorem distinct_enqueued {id : JobId} (not_ready : id ∉ agenda.ready) :
    (agenda.ready ++ [id]).Nodup := by
  refine List.nodup_append.mpr ⟨sound.distinct, by simp, ?_⟩
  rintro first first_mem second second_mem rfl
  exact not_ready (List.mem_singleton.mp second_mem ▸ first_mem)

end Sound

namespace Consistent

variable {agenda : Agenda} (consistent : agenda.Consistent)
include consistent

/-- Awaited jobs are live, and know who waits for them. -/
theorem awaited {id server : JobId} {entry : Entry} (live : agenda.live? id = some entry)
    (server_mem : server ∈ entry.waitingOn) :
    ∃ served, agenda.live? server = some served ∧ id ∈ served.waiters := by
  have counted := consistent.converse id server
  rw [waitingOn_eq live] at counted
  have positive : 0 < (agenda.waitersOf server).count id := by
    rw [← counted]
    exact List.count_pos_iff.mpr server_mem
  have waiter_mem := List.count_pos_iff.mp positive
  rcases live_of_mem_waitersOf waiter_mem with ⟨served, served_live⟩
  exact ⟨served, served_live, waitersOf_eq served_live ▸ waiter_mem⟩

end Consistent

/-- There is one live job for a request. -/
theorem Sound.unique {agenda : Agenda} (sound : agenda.Sound) {first second : JobId}
    {request : Request} (first_serves : agenda.Serves first request)
    (second_serves : agenda.Serves second request) : first = second := by
  rcases first_serves with ⟨entry, live, request_eq⟩
  rcases second_serves with ⟨other, other_live, other_eq⟩
  have found := sound.served live
  have other_found := sound.served other_live
  rw [request_eq] at found
  rw [other_eq, found] at other_found
  cases other_found
  rfl

/-- A job that is handed out waits for nothing. -/
theorem Consistent.not_waits {agenda : Agenda} (consistent : agenda.Consistent) {id : JobId}
    {request server : Request} (handedOut : agenda.HandedOut id request) :
    ¬ agenda.Waits request server := by
  rintro ⟨waiter, entry, live, request_eq, awaited, awaited_mem, -⟩
  rcases handedOut with ⟨handed, handed_live, handed_eq, job_none⟩
  obtain rfl : waiter = id :=
    consistent.unique ⟨entry, live, request_eq⟩ ⟨handed, handed_live, handed_eq⟩
  rw [handed_live] at live
  cases live
  rw [consistent.idle handed_live job_none] at awaited_mem
  cases awaited_mem

/-- A job serves one request only. -/
theorem Serves.unique {agenda : Agenda} {id : JobId} {first second : Request}
    (first_serves : agenda.Serves id first) (second_serves : agenda.Serves id second) :
    first = second := by
  rcases first_serves with ⟨entry, live, rfl⟩
  rcases second_serves with ⟨other, other_live, rfl⟩
  rw [live] at other_live
  cases other_live
  rfl

/-! ## Handing out -/

section HandOut

variable {agenda : Agenda} {id : JobId} {entry : Entry}

/-- The agenda after a stored job has been handed out. -/
def handedOut (agenda : Agenda) (id : JobId) (entry : Entry) (rest : List JobId) : Agenda :=
  { agenda.setEntry id (some { entry with job := none }) with
    ready := rest
    outstanding := agenda.outstanding + 1 }

theorem live?_handedOut (live : agenda.live? id = some entry) (rest : List JobId)
    (other : JobId) : (agenda.handedOut id entry rest).live? other =
      if id = other then some { entry with job := none } else agenda.live? other :=
  live?_setEntry live _ other

/-- Handing out changes no entry but in its job. -/
theorem live?_of_handedOut (live : agenda.live? id = some entry) {rest : List JobId}
    {other : JobId} {found : Entry}
    (found_live : (agenda.handedOut id entry rest).live? other = some found) :
    ∃ before, agenda.live? other = some before ∧ found.request = before.request ∧
      found.pending = before.pending ∧ found.waiters = before.waiters ∧
        found.waitingOn = before.waitingOn := by
  rw [live?_handedOut live] at found_live
  split at found_live
  · rename_i here
    cases found_live
    exact ⟨entry, here ▸ live, rfl, rfl, rfl, rfl⟩
  · exact ⟨found, found_live, rfl, rfl, rfl, rfl⟩

theorem handedOut_of_live? (live : agenda.live? id = some entry) (rest : List JobId)
    {other : JobId} {before : Entry} (before_live : agenda.live? other = some before) :
    ∃ found, (agenda.handedOut id entry rest).live? other = some found ∧
      found.request = before.request ∧ found.waiters = before.waiters ∧
        found.waitingOn = before.waitingOn := by
  rw [live?_handedOut live]
  split
  · rename_i here
    subst here
    rw [live] at before_live
    cases before_live
    exact ⟨_, rfl, rfl, rfl, rfl⟩
  · exact ⟨before, before_live, rfl, rfl, rfl⟩

theorem waitingOn_handedOut (live : agenda.live? id = some entry) (rest : List JobId)
    (other : JobId) : (agenda.handedOut id entry rest).waitingOn other = agenda.waitingOn other := by
  by_cases here : id = other
  · subst here
    simp only [waitingOn, live?_handedOut live, live, ↓reduceIte]
  · simp only [waitingOn, live?_handedOut live, if_neg here]

theorem waitersOf_handedOut (live : agenda.live? id = some entry) (rest : List JobId)
    (other : JobId) : (agenda.handedOut id entry rest).waitersOf other = agenda.waitersOf other := by
  by_cases here : id = other
  · subst here
    simp only [waitersOf, live?_handedOut live, live, ↓reduceIte]
  · simp only [waitersOf, live?_handedOut live, if_neg here]

theorem Consistent.handedOut (consistent : agenda.Consistent) {rest : List JobId}
    (ready_eq : agenda.ready = id :: rest) (live : agenda.live? id = some entry) :
    (agenda.handedOut id entry rest).Consistent := by
  have distinct := consistent.distinct
  rw [ready_eq, List.nodup_cons] at distinct
  have waits_nothing : entry.waitingOn = [] :=
    (consistent.of_ready live (ready_eq ▸ List.mem_cons_self)).2
  refine ⟨⟨?_, ?_, ?_, ?_, ?_, distinct.2⟩, ?_⟩
  · intro request server found
    rcases consistent.serves found with ⟨before, before_live, request_eq⟩
    rcases handedOut_of_live? live rest before_live with ⟨after, after_live, same, -⟩
    exact ⟨after, after_live, same.trans request_eq⟩
  · intro other found found_live
    rcases live?_of_handedOut live found_live with ⟨before, before_live, same, -⟩
    rw [same]
    exact consistent.served before_live
  · intro other found found_live
    rcases live?_of_handedOut live found_live with ⟨before, before_live, -, pending, -, waitingOn⟩
    rw [pending, waitingOn]
    exact consistent.counted before_live
  · intro other found found_live job_none
    rw [live?_handedOut live] at found_live
    split at found_live
    · cases found_live
      exact waits_nothing
    · exact consistent.idle found_live job_none
  · intro other other_mem
    have different : id ≠ other := fun here => distinct.1 (here ▸ other_mem)
    rcases consistent.queued (ready_eq ▸ List.mem_cons_of_mem id other_mem) with
      ⟨found, job, found_live, facts⟩
    refine ⟨found, job, ?_, facts⟩
    rw [live?_handedOut live, if_neg different]
    exact found_live
  · intro waiter server
    rw [waitingOn_handedOut live, waitersOf_handedOut live]
    exact consistent.converse waiter server

/-- What callers learn when a job is handed out. -/
structure Took (agenda : Agenda) (id : JobId) (request : Request) (job : Job)
    (after : Agenda) : Prop where
  consistent : after.Consistent
  stored : agenda.Stores request job
  handedOut : after.HandedOut id request
  stores : ∀ {other state}, after.Stores other state → other ≠ request ∧ agenda.Stores other state
  live : ∀ {other}, after.Live other ↔ agenda.Live other
  waits : ∀ {waiter server}, after.Waits waiter server ↔ agenda.Waits waiter server
  rooted : ∀ {root}, agenda.Rooted root → after.Rooted root
  finished : after.finished = agenda.finished
  failure : after.failure = agenda.failure

/-- The number of jobs handed out says nothing about the others. -/
theorem Took.outstanding {request : Request} {job : Job} {after : Agenda}
    (took : agenda.Took id request job after) (outstanding : Nat) :
    agenda.Took id request job { after with outstanding } where
  consistent :=
    ⟨⟨took.consistent.serves, took.consistent.served, took.consistent.counted,
      took.consistent.idle, took.consistent.queued, took.consistent.distinct⟩,
      took.consistent.converse⟩
  stored := took.stored
  handedOut := took.handedOut
  stores := fun stores => took.stores stores
  live := took.live
  waits := took.waits
  rooted := fun rooted => took.rooted rooted
  finished := took.finished
  failure := took.failure

theorem took (consistent : agenda.Consistent) {rest : List JobId} {job : Job}
    (ready_eq : agenda.ready = id :: rest) (live : agenda.live? id = some entry)
    (stored : entry.job = some job) :
    agenda.Took id entry.request job (agenda.handedOut id entry rest) := by
  have serves_iff {other : JobId} {request : Request} :
      (agenda.handedOut id entry rest).Serves other request ↔ agenda.Serves other request := by
    constructor
    · rintro ⟨found, found_live, request_eq⟩
      rcases live?_of_handedOut live found_live with ⟨before, before_live, same, -⟩
      exact ⟨before, before_live, same.symm.trans request_eq⟩
    · rintro ⟨before, before_live, request_eq⟩
      rcases handedOut_of_live? live rest before_live with ⟨found, found_live, same, -⟩
      exact ⟨found, found_live, same.trans request_eq⟩
  refine ⟨consistent.handedOut ready_eq live, ⟨id, entry, live, rfl, stored⟩, ?_, ?_, ?_, ?_, ?_,
    rfl, rfl⟩
  · exact ⟨{ entry with job := none }, by rw [live?_handedOut live, if_pos rfl], rfl, rfl⟩
  · rintro other state ⟨holder, found, found_live, request_eq, stored_eq⟩
    rw [live?_handedOut live] at found_live
    split at found_live
    · cases found_live
      cases stored_eq
    · rename_i different
      refine ⟨?_, holder, found, found_live, request_eq, stored_eq⟩
      rintro rfl
      exact different (consistent.unique ⟨entry, live, rfl⟩ ⟨found, found_live, request_eq⟩)
  · exact exists_congr fun _ => serves_iff
  · intro waiter server
    constructor
    · rintro ⟨holder, found, found_live, request_eq, awaited, awaited_mem, serves⟩
      rcases live?_of_handedOut live found_live with ⟨before, before_live, same, -, -, waitingOn⟩
      exact ⟨holder, before, before_live, same.symm.trans request_eq, awaited,
        waitingOn ▸ awaited_mem, serves_iff.mp serves⟩
    · rintro ⟨holder, before, before_live, request_eq, awaited, awaited_mem, serves⟩
      rcases handedOut_of_live? live rest before_live with ⟨found, found_live, same, -, waitingOn⟩
      exact ⟨holder, found, found_live, same.trans request_eq, awaited,
        waitingOn ▸ awaited_mem, serves_iff.mpr serves⟩
  · rintro root ⟨rootId, root_eq, created, rooted⟩
    refine ⟨rootId, root_eq, ?_, ?_⟩
    · simpa [Agenda.created, Agenda.handedOut, setEntry] using created
    · intro found found_live
      rcases live?_of_handedOut live found_live with ⟨before, before_live, same, -⟩
      rw [same]
      exact rooted before_live

/-- The first ready job is handed out. -/
theorem handedOut_of_next (consistent : agenda.Consistent) {cancelled : Bool} {after : Agenda}
    {job : Job} (next_eq : agenda.next cancelled = (after, some (id, job))) :
    ∃ entry rest, agenda.ready = id :: rest ∧ agenda.live? id = some entry ∧
      entry.job = some job ∧ after = agenda.handedOut id entry rest := by
  rw [next] at next_eq
  split at next_eq
  · cases next_eq
  · split at next_eq
    · cases next_eq
    · cases ready_eq : agenda.ready with
      | nil =>
          rw [ready_eq, take] at next_eq
          split at next_eq <;> cases next_eq
      | cons first rest =>
          rcases consistent.queued (ready_eq ▸ List.mem_cons_self) with
            ⟨⟨stored, request, pending, waiters, waitingOn⟩, state, live, stored_eq, -⟩
          cases stored_eq
          rw [ready_eq, take, live] at next_eq
          cases next_eq
          exact ⟨_, rest, rfl, live, rfl, rfl⟩

theorem next_spec (consistent : agenda.Consistent) {cancelled : Bool} {after : Agenda} {job : Job}
    (next_eq : agenda.next cancelled = (after, some (id, job))) :
    agenda.finished = false ∧ agenda.failure = none ∧
      ∃ request, agenda.Took id request job after := by
  rcases handedOut_of_next consistent next_eq with ⟨entry, rest, ready_eq, live, stored, rfl⟩
  rw [next] at next_eq
  split at next_eq
  · simp at next_eq
  · rename_i running
    rw [not_or] at running
    exact ⟨by simpa using running.1, by simpa using running.2, entry.request,
      took consistent ready_eq live stored⟩

theorem fail_ne_none (agenda : Agenda) (failure : Failure) :
    (agenda.fail failure).failure ≠ none := by
  cases earlier : agenda.failure with
  | none => simp [fail, earlier]
  | some first => simp [fail, earlier]

theorem next_of_failure {failure : Failure} (failed : agenda.failure = some failure)
    (cancelled : Bool) : agenda.next cancelled = (agenda, none) := by
  rw [next, if_pos (.inr (by simp [failed]))]

/-- An agenda that has failed hands out nothing. -/
theorem running_of_next {cancelled : Bool} {after : Agenda} {handed : JobId × Job}
    (next_eq : agenda.next cancelled = (after, some handed)) : agenda.failure = none := by
  cases failed : agenda.failure with
  | none => rfl
  | some failure =>
      rw [next_of_failure failed] at next_eq
      cases next_eq

/-- An agenda that hands out nothing fails or stays as it is. -/
theorem next_none (consistent : agenda.Consistent) {cancelled : Bool} {after : Agenda}
    (next_eq : agenda.next cancelled = (after, none)) : after = agenda ∨ after.failure ≠ none := by
  rw [next] at next_eq
  split at next_eq
  · cases next_eq
    exact .inl rfl
  · split at next_eq
    · cases next_eq
      exact .inr (fail_ne_none agenda .cancelled)
    · cases ready_eq : agenda.ready with
      | nil =>
          have drained : ({ agenda with ready := [] } : Agenda) = agenda := by
            rw [← ready_eq]
          rw [ready_eq, take, drained] at next_eq
          split at next_eq
          · cases next_eq
            exact .inr (fail_ne_none agenda _)
          · cases next_eq
            exact .inl rfl
      | cons first rest =>
          rcases consistent.queued (ready_eq ▸ List.mem_cons_self) with
            ⟨⟨stored, request, pending, waiters, waitingOn⟩, state, live, stored_eq, -⟩
          cases stored_eq
          rw [ready_eq, take, live] at next_eq
          cases next_eq

end HandOut

end Agenda

end Cascades
