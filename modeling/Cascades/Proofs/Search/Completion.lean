import Cascades.Proofs.Search.Agenda

/-!
# Completion of jobs

When a job is done its entry is removed, and every job that waits for it is told so, once for each
time it waits. Afterwards nothing waits for the job, and all else is as it was.
-/

namespace Cascades

/-- An entry that waits once less for a job. -/
def Entry.notified (entry : Entry) (done : JobId) : Entry :=
  { entry with pending := entry.pending - 1, waitingOn := entry.waitingOn.erase done }

namespace Agenda

/--
The waiting jobs of a list have yet to be told that a job is done. They wait for it once for each
time they are listed.
-/
structure Owes (agenda : Agenda) (done : JobId) (owed : List JobId) : Prop
    extends agenda.Sound where
  converse : ∀ waiter server, (agenda.waitingOn waiter).count server =
    (agenda.waitersOf server).count waiter + if server = done then owed.count waiter else 0

/-- Entries change at most in that they do not wait for a job that is done. -/
structure Trimmed (done : JobId) (agenda after : Agenda) : Prop where
  entries : ∀ {id entry}, agenda.live? id = some entry → ∃ trimmed,
    after.live? id = some trimmed ∧ trimmed.request = entry.request ∧ trimmed.job = entry.job ∧
      ∀ server, server ≠ done → (server ∈ trimmed.waitingOn ↔ server ∈ entry.waitingOn)
  missing : ∀ {id}, agenda.live? id = none → after.live? id = none
  created : after.created = agenda.created
  root : after.root = agenda.root
  finished : after.finished = agenda.finished
  failure : after.failure = agenda.failure

namespace Trimmed

variable {done : JobId} {agenda middle after : Agenda}

theorem refl : Trimmed done agenda agenda :=
  ⟨fun live => ⟨_, live, rfl, rfl, fun _ _ => Iff.rfl⟩, fun missing => missing, rfl, rfl, rfl, rfl⟩

theorem trans (early : Trimmed done agenda middle) (late : Trimmed done middle after) :
    Trimmed done agenda after where
  entries := by
    intro id entry live
    rcases early.entries live with ⟨first, live, request_eq, job_eq, waitingOn⟩
    rcases late.entries live with ⟨second, live, request_eq', job_eq', waitingOn'⟩
    exact ⟨second, live, request_eq'.trans request_eq, job_eq'.trans job_eq,
      fun server different => (waitingOn' server different).trans (waitingOn server different)⟩
  missing := fun missing => late.missing (early.missing missing)
  created := late.created.trans early.created
  root := late.root.trans early.root
  finished := late.finished.trans early.finished
  failure := late.failure.trans early.failure

theorem before (trimmed : Trimmed done agenda after) {id : JobId} {entry : Entry}
    (live : after.live? id = some entry) : ∃ before, agenda.live? id = some before ∧
      entry.request = before.request ∧ entry.job = before.job ∧
        ∀ server, server ≠ done → (server ∈ entry.waitingOn ↔ server ∈ before.waitingOn) := by
  cases found : agenda.live? id with
  | none =>
      rw [trimmed.missing found] at live
      cases live
  | some before =>
      rcases trimmed.entries found with ⟨same, same_live, facts⟩
      rw [live] at same_live
      cases same_live
      exact ⟨before, rfl, facts⟩

end Trimmed

section Notify

variable {agenda : Agenda} {done waiter : JobId} {entry : Entry} {rest : List JobId}

theorem notify_eq (live : agenda.live? waiter = some entry) :
    notify done agenda waiter =
      if (entry.notified done).pending = 0 then
        (agenda.setEntry waiter (some (entry.notified done))).enqueue waiter
      else agenda.setEntry waiter (some (entry.notified done)) := by
  rw [notify, live]
  rfl

theorem live?_notify (live : agenda.live? waiter = some entry) (other : JobId) :
    (notify done agenda waiter).live? other =
      if waiter = other then some (entry.notified done) else agenda.live? other := by
  rw [← live?_setEntry live, notify_eq live]
  split
  · rfl
  · rfl

theorem active?_notify (live : agenda.live? waiter = some entry) (request : Request) :
    (notify done agenda waiter).active? request = agenda.active? request := by
  rw [notify_eq live]
  split
  · rfl
  · rfl

theorem waitingOn_notify (live : agenda.live? waiter = some entry) (other : JobId) :
    (notify done agenda waiter).waitingOn other =
      if waiter = other then entry.waitingOn.erase done else agenda.waitingOn other := by
  by_cases here : waiter = other
  · subst here
    simp only [waitingOn, live?_notify live, ↓reduceIte]
    rfl
  · simp only [waitingOn, live?_notify live, if_neg here]

theorem waitersOf_notify (other : JobId) :
    (notify done agenda waiter).waitersOf other = agenda.waitersOf other := by
  cases live : agenda.live? waiter with
  | none => rw [notify, live]
  | some entry =>
      by_cases here : waiter = other
      · subst here
        simp only [waitersOf, live?_notify live, live, ↓reduceIte]
        rfl
      · simp only [waitersOf, live?_notify live, if_neg here]

theorem mem_ready_notify (live : agenda.live? waiter = some entry) {other : JobId}
    (ready : other ∈ (notify done agenda waiter).ready) :
    other ∈ agenda.ready ∨ (other = waiter ∧ (entry.notified done).pending = 0) := by
  rw [notify_eq live] at ready
  split at ready
  · rename_i idle
    exact (List.mem_append.mp ready).imp_right fun new => ⟨List.mem_singleton.mp new, idle⟩
  · exact .inl ready

theorem trimmed_notify (live : agenda.live? waiter = some entry) :
    Trimmed done agenda (notify done agenda waiter) where
  entries := by
    intro other before before_live
    rw [live?_notify live]
    split
    · rename_i here
      subst here
      rw [live] at before_live
      cases before_live
      exact ⟨_, rfl, rfl, rfl, fun server different => List.mem_erase_of_ne different⟩
    · exact ⟨before, before_live, rfl, rfl, fun _ _ => Iff.rfl⟩
  missing := by
    intro other missing
    rw [live?_notify live, if_neg]
    · exact missing
    · rintro rfl
      rw [live] at missing
      cases missing
  created := by
    rw [notify_eq live]
    split
    · simp [created, enqueue, setEntry]
    · simp [created, setEntry]
  root := by
    rw [notify_eq live]
    split
    · rfl
    · rfl
  finished := by
    rw [notify_eq live]
    split
    · rfl
    · rfl
  failure := by
    rw [notify_eq live]
    split
    · rfl
    · rfl

namespace Owes

variable (owes : agenda.Owes done (waiter :: rest))
include owes

/-- Whoever is owed a notification is live and waits. -/
theorem waits : ∃ entry, agenda.live? waiter = some entry ∧ done ∈ entry.waitingOn := by
  have counted := owes.converse waiter done
  rw [if_pos rfl, List.count_cons_self] at counted
  have waits : done ∈ agenda.waitingOn waiter := by
    rw [← List.count_pos_iff, counted]
    omega
  rcases live_of_mem_waitingOn waits with ⟨entry, live⟩
  exact ⟨entry, live, waitingOn_eq live ▸ waits⟩

/-- One notification keeps the books balanced. -/
theorem notify (live : agenda.live? waiter = some entry) (waits : done ∈ entry.waitingOn) :
    (notify done agenda waiter).Owes done rest := by
  have not_ready : waiter ∉ agenda.ready := by
    intro ready
    rw [(owes.of_ready live ready).2] at waits
    cases waits
  have stored : ∃ job, entry.job = some job := by
    cases job_eq : entry.job with
    | some job => exact ⟨job, rfl⟩
    | none =>
        rw [owes.idle live job_eq] at waits
        cases waits
  have pending_eq : (entry.notified done).pending = (entry.notified done).waitingOn.length := by
    have counted := owes.counted live
    simp only [Entry.notified, List.length_erase_of_mem waits]
    omega
  refine ⟨⟨?_, ?_, ?_, ?_, ?_, ?_⟩, ?_⟩
  · intro request id found
    rw [active?_notify live] at found
    rcases owes.serves found with ⟨before, before_live, request_eq⟩
    rcases (trimmed_notify live).entries before_live with ⟨after, after_live, same, -⟩
    exact ⟨after, after_live, same.trans request_eq⟩
  · intro id found found_live
    rcases (trimmed_notify live).before found_live with ⟨before, before_live, same, -⟩
    rw [active?_notify live, same]
    exact owes.served before_live
  · intro id found found_live
    rw [live?_notify live] at found_live
    split at found_live
    · cases found_live
      exact pending_eq
    · exact owes.counted found_live
  · intro id found found_live job_none
    rw [live?_notify live] at found_live
    split at found_live
    · cases found_live
      rcases stored with ⟨job, stored⟩
      exact (Option.some_ne_none job (stored.symm.trans job_none)).elim
    · exact owes.idle found_live job_none
  · intro id id_mem
    rw [live?_notify live]
    rcases mem_ready_notify live id_mem with old | ⟨rfl, idle⟩
    · have different : waiter ≠ id := by
        rintro rfl
        exact not_ready old
      rw [if_neg different]
      exact owes.queued old
    · rcases stored with ⟨job, stored⟩
      rw [pending_eq, List.length_eq_zero_iff] at idle
      exact ⟨_, job, if_pos rfl, stored, idle⟩
  · rw [notify_eq live]
    split
    · exact owes.distinct_enqueued not_ready
    · exact owes.distinct
  · intro other server
    have counted := owes.converse other server
    rw [waitersOf_notify, waitingOn_notify live]
    by_cases here : waiter = other
    · -- one wait is given up for the one notification that is no longer owed
      subst here
      rw [waitingOn_eq live, List.count_cons_self] at counted
      rw [if_pos rfl, List.count_erase]
      by_cases same : server = done
      · subst same
        simp only [beq_self_eq_true, ↓reduceIte] at counted ⊢
        omega
      · simp only [if_neg same, beq_iff_eq, Ne.symm same, ↓reduceIte] at counted ⊢
        omega
    · rw [if_neg here, counted, List.count_cons_of_ne here]

end Owes

/-- Once all that wait for a job have been told, the books are closed. -/
theorem foldl_notify {owed : List JobId} (owes : agenda.Owes done owed)
    (gone : agenda.live? done = none) :
    (owed.foldl (notify done) agenda).Consistent ∧
      Trimmed done agenda (owed.foldl (notify done) agenda) := by
  induction owed generalizing agenda with
  | nil =>
      refine ⟨⟨owes.toSound, ?_⟩, .refl⟩
      intro waiter server
      simpa using owes.converse waiter server
  | cons waiter rest ih =>
      rcases owes.waits with ⟨entry, live, waits⟩
      have trimmed : Trimmed done agenda (notify done agenda waiter) := trimmed_notify live
      rcases ih (owes.notify live waits) (trimmed.missing gone) with ⟨consistent, rest_trimmed⟩
      exact ⟨consistent, trimmed.trans rest_trimmed⟩

end Notify

section Complete

variable {agenda : Agenda} {id : JobId} {entry : Entry}

/-- The agenda without a job, before those that wait for it are told. -/
def removed (agenda : Agenda) (id : JobId) (request : Request) : Agenda :=
  { agenda.setEntry id none with
    active := agenda.active.filter (fun served => served.1 != request) }

theorem complete_eq (live : agenda.live? id = some entry) :
    agenda.complete id =
      { entry.waiters.foldl (notify id) (agenda.removed id entry.request) with
        finished := (entry.waiters.foldl (notify id) (agenda.removed id entry.request)).finished ||
          (entry.waiters.foldl (notify id) (agenda.removed id entry.request)).root == some id } := by
  rw [complete, live]
  rfl

theorem live?_removed (live : agenda.live? id = some entry) (other : JobId) :
    (agenda.removed id entry.request).live? other =
      if id = other then none else agenda.live? other :=
  live?_setEntry live none other

theorem owes_removed (consistent : agenda.Consistent) (live : agenda.live? id = some entry)
    (job_none : entry.job = none) :
    (agenda.removed id entry.request).Owes id entry.waiters := by
  have active_iff (request : Request) : (agenda.removed id entry.request).active? request =
      if request = entry.request then none else agenda.active? request :=
    lookup_filter_ne agenda.active entry.request request
  have here_or {other : JobId} {found : Entry}
      (found_live : (agenda.removed id entry.request).live? other = some found) :
      id ≠ other ∧ agenda.live? other = some found := by
    rw [live?_removed live] at found_live
    split at found_live
    · cases found_live
    · rename_i different
      exact ⟨different, found_live⟩
  refine ⟨⟨?_, ?_, ?_, ?_, ?_, consistent.distinct⟩, ?_⟩
  · intro request other found
    rw [active_iff] at found
    split at found
    · cases found
    · rename_i different
      rcases consistent.serves found with ⟨served, served_live, request_eq⟩
      refine ⟨served, ?_, request_eq⟩
      rw [live?_removed live, if_neg]
      · exact served_live
      · rintro rfl
        rw [live] at served_live
        cases served_live
        exact different request_eq.symm
  · intro other found found_live
    rcases here_or found_live with ⟨different, before⟩
    rw [active_iff, if_neg]
    · exact consistent.served before
    · intro same
      exact different (consistent.unique ⟨entry, live, rfl⟩ ⟨found, before, same⟩)
  · intro other found found_live
    exact consistent.counted (here_or found_live).2
  · intro other found found_live
    exact consistent.idle (here_or found_live).2
  · intro other other_mem
    rcases consistent.queued other_mem with ⟨found, job, found_live, stored, idle⟩
    refine ⟨found, job, ?_, stored, idle⟩
    rw [live?_removed live, if_neg]
    · exact found_live
    · rintro rfl
      exact (consistent.of_ready live other_mem).1 job_none
  · intro waiter server
    have counted := consistent.converse waiter server
    have waiting_eq : (agenda.removed id entry.request).waitingOn waiter =
        agenda.waitingOn waiter := by
      by_cases here : id = waiter
      · subst here
        rw [waitingOn_eq live, consistent.idle live job_none]
        simp only [waitingOn, live?_removed live, ↓reduceIte]
      · simp only [waitingOn, live?_removed live, if_neg here]
    rw [waiting_eq, counted]
    by_cases here : id = server
    · subst here
      rw [waitersOf_eq live]
      simp only [waitersOf, live?_removed live, ↓reduceIte, List.count_nil, Nat.zero_add]
    · rw [if_neg (Ne.symm here)]
      simp only [waitersOf, live?_removed live, if_neg here, Nat.add_zero]

/-- What callers learn when a job is removed. -/
structure Completed (agenda : Agenda) (request : Request) (after : Agenda) : Prop where
  consistent : after.Consistent
  stores : ∀ {other state}, after.Stores other state → agenda.Stores other state
  live : ∀ {other}, after.Live other → agenda.Live other ∧ other ≠ request
  waits : ∀ {waiter server}, after.Waits waiter server ↔
    agenda.Waits waiter server ∧ server ≠ request
  rooted : ∀ {root}, agenda.Rooted root → after.Rooted root
  finished : ∀ {root}, agenda.Rooted root → after.finished = true →
    agenda.finished = true ∨ request = root
  failure : after.failure = agenda.failure

theorem complete_spec (consistent : agenda.Consistent) {request : Request}
    (handedOut : agenda.HandedOut id request) :
    agenda.Completed request (agenda.complete id) := by
  rcases handedOut with ⟨entry, live, rfl, job_none⟩
  rcases foldl_notify (owes_removed consistent live job_none)
    (by rw [live?_removed live, if_pos rfl]) with ⟨after_consistent, trimmed⟩
  rw [complete_eq live]
  generalize entry.waiters.foldl (notify id) (agenda.removed id entry.request) = told at *
  have live_before {other : JobId} {found : Entry} (found_live : told.live? other = some found) :
      ∃ before, id ≠ other ∧ agenda.live? other = some before ∧ found.request = before.request ∧
        found.job = before.job ∧
          ∀ server, server ≠ id → (server ∈ found.waitingOn ↔ server ∈ before.waitingOn) := by
    rcases trimmed.before found_live with ⟨before, before_live, facts⟩
    rw [live?_removed live] at before_live
    split at before_live
    · cases before_live
    · rename_i different
      exact ⟨before, different, before_live, facts⟩
  have live_after {other : JobId} {before : Entry} (different : id ≠ other)
      (before_live : agenda.live? other = some before) :
      ∃ found, told.live? other = some found ∧ found.request = before.request ∧
        ∀ server, server ≠ id → (server ∈ found.waitingOn ↔ server ∈ before.waitingOn) := by
    rcases trimmed.entries (by rw [live?_removed live, if_neg different]; exact before_live) with
      ⟨found, found_live, request_eq, -, waitingOn⟩
    exact ⟨found, found_live, request_eq, waitingOn⟩
  have request_ne {other : JobId} {before : Entry} (different : id ≠ other)
      (before_live : agenda.live? other = some before) : before.request ≠ entry.request :=
    fun same => different (consistent.unique ⟨entry, live, rfl⟩ ⟨before, before_live, same⟩)
  refine ⟨⟨⟨after_consistent.serves, after_consistent.served, after_consistent.counted,
    after_consistent.idle, after_consistent.queued, after_consistent.distinct⟩,
    after_consistent.converse⟩, ?_, ?_, ?_, ?_, ?_, trimmed.failure⟩
  · rintro other state ⟨holder, found, found_live, request_eq, stored⟩
    rcases live_before found_live with ⟨before, -, before_live, same, job_eq, -⟩
    exact ⟨holder, before, before_live, same.symm.trans request_eq, job_eq.symm.trans stored⟩
  · rintro other ⟨holder, found, found_live, rfl⟩
    rcases live_before found_live with ⟨before, different, before_live, same, -⟩
    rw [same]
    exact ⟨⟨holder, before, before_live, rfl⟩, request_ne different before_live⟩
  · intro waiter server
    constructor
    · rintro ⟨holder, found, found_live, rfl, awaited, awaited_mem, served, served_live, rfl⟩
      rcases live_before found_live with ⟨before, -, before_live, same, -, waitingOn⟩
      rcases live_before served_live with ⟨known, known_different, known_live, known_same, -⟩
      rw [same, known_same]
      refine ⟨⟨holder, before, before_live, rfl, awaited, ?_, known, known_live, rfl⟩,
        request_ne known_different known_live⟩
      exact (waitingOn awaited (Ne.symm known_different)).mp awaited_mem
    · rintro ⟨⟨holder, before, before_live, rfl, awaited, awaited_mem, served, served_live, rfl⟩,
        server_ne⟩
      have awaited_ne : id ≠ awaited := by
        rintro rfl
        rw [live] at served_live
        cases served_live
        exact server_ne rfl
      have holder_ne : id ≠ holder := by
        rintro rfl
        rw [live] at before_live
        cases before_live
        rw [consistent.idle live job_none] at awaited_mem
        cases awaited_mem
      rcases live_after holder_ne before_live with ⟨found, found_live, same, waitingOn⟩
      rcases live_after awaited_ne served_live with ⟨known, known_live, known_same, -⟩
      exact ⟨holder, found, found_live, same, awaited,
        (waitingOn awaited (Ne.symm awaited_ne)).mpr awaited_mem, known, known_live, known_same⟩
  · rintro root ⟨rootId, root_eq, created, rooted⟩
    refine ⟨rootId, trimmed.root.trans root_eq, ?_, ?_⟩
    · have created_eq : told.created = agenda.created := by
        rw [trimmed.created]
        simp [Agenda.created, removed, setEntry]
      exact created_eq ▸ created
    · intro found found_live
      rcases live_before found_live with ⟨before, -, before_live, same, -⟩
      rw [same]
      exact rooted before_live
  · rintro root ⟨rootId, root_eq, -, rooted⟩ finished
    have told_root : told.root = some rootId := trimmed.root.trans root_eq
    have told_finished : told.finished = agenda.finished := trimmed.finished
    simp only [told_root, told_finished, Bool.or_eq_true, beq_iff_eq, Option.some.injEq] at finished
    rcases finished with earlier | rfl
    · exact .inl earlier
    · exact .inr (rooted live)

end Complete

end Agenda

end Cascades
