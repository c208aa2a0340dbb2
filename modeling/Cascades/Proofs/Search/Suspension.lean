import Cascades.Proofs.Search.Agenda

/-!
# Suspension of jobs

A job that asks for work is stored until that work is done. Requests that no live job serves get new
jobs, which wait for nothing; the other jobs stay as they were, except that they learn who waits for
them.
-/

namespace Cascades

namespace Agenda

/-- New jobs for requests of a list that no live job served before. -/
structure Enlarged (requests : List Request) (agenda after : Agenda) : Prop where
  kept : ∀ {id entry}, agenda.live? id = some entry → after.live? id = some entry
  fresh : ∀ {id entry}, after.live? id = some entry → agenda.live? id = some entry ∨
    (agenda.created ≤ id ∧ entry = ⟨some entry.request.job, entry.request, 0, [], []⟩ ∧
      entry.request ∈ requests ∧ ¬ agenda.Live entry.request)
  created_le : agenda.created ≤ after.created
  root : after.root = agenda.root
  finished : after.finished = agenda.finished
  failure : after.failure = agenda.failure

namespace Enlarged

variable {first second : List Request} {agenda middle after : Agenda}

theorem refl (requests : List Request) : Enlarged requests agenda agenda :=
  ⟨fun live => live, fun live => .inl live, Nat.le_refl _, rfl, rfl, rfl⟩

theorem serves (enlarged : Enlarged first agenda after) {id : JobId} {request : Request}
    (serves : agenda.Serves id request) : after.Serves id request := by
  rcases serves with ⟨entry, live, request_eq⟩
  exact ⟨entry, enlarged.kept live, request_eq⟩

theorem trans (early : Enlarged first agenda middle) (late : Enlarged second middle after) :
    Enlarged (first ++ second) agenda after where
  kept := fun live => late.kept (early.kept live)
  fresh := by
    intro id entry live
    rcases late.fresh live with middle_live | ⟨beyond, shape, asked, unserved⟩
    · rcases early.fresh middle_live with before | ⟨beyond, shape, asked, unserved⟩
      · exact .inl before
      · exact .inr ⟨beyond, shape, List.mem_append_left second asked, unserved⟩
    · refine .inr ⟨Nat.le_trans early.created_le beyond, shape, List.mem_append_right first asked, ?_⟩
      rintro ⟨server, serves⟩
      exact unserved ⟨server, early.serves serves⟩
  created_le := Nat.le_trans early.created_le late.created_le
  root := late.root.trans early.root
  finished := late.finished.trans early.finished
  failure := late.failure.trans early.failure

theorem rooted (enlarged : Enlarged first agenda after) {request : Request}
    (rooted : agenda.Rooted request) : after.Rooted request := by
  rcases rooted with ⟨id, root_eq, created, served⟩
  refine ⟨id, enlarged.root.trans root_eq, Nat.lt_of_lt_of_le created enlarged.created_le, ?_⟩
  intro entry live
  rcases enlarged.fresh live with before | ⟨beyond, -⟩
  · exact served before
  · exact (Nat.not_lt_of_le beyond created).elim

end Enlarged

section Create

variable {agenda after : Agenda} {id server : JobId} {request : Request}

theorem create_eq (created : agenda.create request = .ok (after, server)) :
    server = agenda.created ∧ after =
      { agenda with
        entries := agenda.entries.push (some ⟨some request.job, request, 0, [], []⟩)
        ready := agenda.ready ++ [agenda.created]
        active := (request, agenda.created) ::
          agenda.active.filter (fun served => served.1 != request) } := by
  rw [create] at created
  split at created
  · cases created
  · cases created
    exact ⟨rfl, rfl⟩

theorem live?_create (created : agenda.create request = .ok (after, server)) (other : JobId) :
    after.live? other = if other = agenda.created then
      some ⟨some request.job, request, 0, [], []⟩ else agenda.live? other := by
  rcases create_eq created with ⟨-, rfl⟩
  rw [live?, Array.getElem?_push, Agenda.created]
  split
  · rfl
  · rfl

theorem ne_created {entry : Entry} (live : agenda.live? id = some entry) :
    id ≠ agenda.created :=
  Nat.ne_of_lt (lt_created live)

theorem enlarged_create (created : agenda.create request = .ok (after, server))
    (unserved : ¬ agenda.Live request) : Enlarged [request] agenda after where
  kept := by
    intro other entry live
    rw [live?_create created, if_neg (ne_created live)]
    exact live
  fresh := by
    intro other entry live
    rw [live?_create created] at live
    split at live
    · rename_i new
      cases live
      exact .inr ⟨Nat.le_of_eq new.symm, rfl, List.mem_cons_self, unserved⟩
    · exact .inl live
  created_le := by
    rcases create_eq created with ⟨-, rfl⟩
    simp [Agenda.created]
  root := by
    rcases create_eq created with ⟨-, rfl⟩
    rfl
  finished := by
    rcases create_eq created with ⟨-, rfl⟩
    rfl
  failure := by
    rcases create_eq created with ⟨-, rfl⟩
    rfl

/-- A new job serves a request that no live job served. -/
theorem Consistent.create (consistent : agenda.Consistent)
    (created : agenda.create request = .ok (after, server)) (unserved : ¬ agenda.Live request) :
    after.Consistent := by
  have enlarged := enlarged_create created unserved
  have entry_iff := live?_create created
  have active_iff (other : Request) : after.active? other =
      if other = request then some agenda.created else agenda.active? other := by
    rcases create_eq created with ⟨-, rfl⟩
    rw [active?, List.lookup_cons]
    split
    · rename_i same
      rw [if_pos (by simpa using same)]
    · rename_i different
      have other_ne : other ≠ request := by simpa using different
      rw [if_neg other_ne, lookup_filter_ne, if_neg other_ne]
      rfl
  have ready_eq : after.ready = agenda.ready ++ [agenda.created] := by
    rcases create_eq created with ⟨-, rfl⟩
    rfl
  have waiting_eq (other : JobId) : after.waitingOn other = agenda.waitingOn other := by
    by_cases new : other = agenda.created
    · have missing : agenda.live? other = none := by simp [new, live?, Agenda.created]
      simp only [waitingOn, entry_iff, if_pos new, missing]
    · simp only [waitingOn, entry_iff, if_neg new]
  have waiters_eq (other : JobId) : after.waitersOf other = agenda.waitersOf other := by
    by_cases new : other = agenda.created
    · have missing : agenda.live? other = none := by simp [new, live?, Agenda.created]
      simp only [waitersOf, entry_iff, if_pos new, missing]
    · simp only [waitersOf, entry_iff, if_neg new]
  refine ⟨⟨?_, ?_, ?_, ?_, ?_, ?_⟩, ?_⟩
  · intro other id found
    rw [active_iff] at found
    split at found
    · rename_i same
      cases found
      exact ⟨_, by rw [entry_iff, if_pos rfl], same.symm⟩
    · rcases consistent.serves found with ⟨entry, live, request_eq⟩
      exact ⟨entry, enlarged.kept live, request_eq⟩
  · intro id entry live
    rw [active_iff]
    rw [entry_iff] at live
    split at live
    · rename_i new
      cases live
      rw [if_pos rfl, new]
    · rw [if_neg]
      · exact consistent.served live
      · intro same
        exact unserved ⟨id, entry, live, same⟩
  · intro id entry live
    rcases enlarged.fresh live with before | ⟨-, shape, -⟩
    · exact consistent.counted before
    · rw [shape]
      rfl
  · intro id entry live job_none
    rcases enlarged.fresh live with before | ⟨-, shape, -⟩
    · exact consistent.idle before job_none
    · rw [shape]
  · intro id id_mem
    rw [ready_eq] at id_mem
    rcases List.mem_append.mp id_mem with old | new
    · rcases consistent.queued old with ⟨entry, job, live, facts⟩
      exact ⟨entry, job, enlarged.kept live, facts⟩
    · rw [List.mem_singleton] at new
      exact ⟨_, request.job, by rw [entry_iff, if_pos new], rfl, rfl⟩
  · rw [ready_eq]
    refine consistent.distinct_enqueued fun ready => ?_
    rcases consistent.queued ready with ⟨entry, job, live, -⟩
    exact ne_created live rfl
  · intro waiter other
    rw [waiting_eq, waiters_eq]
    exact consistent.converse waiter other

end Create

/-- A seeded agenda holds the root job and nothing else. -/
theorem seed_spec {limit : Nat} {agenda : Agenda} {request : Request}
    (seeded : (Agenda.empty limit).seed request = .ok agenda) :
    agenda.Consistent ∧ agenda.Rooted request ∧ agenda.finished = false ∧ agenda.failure = none ∧
      (∀ {other state}, agenda.Stores other state → other = request ∧ state = request.job) ∧
        (∀ {other}, agenda.Live other → other = request) ∧
          ∀ {waiter server}, ¬ agenda.Waits waiter server := by
  have missing (id : JobId) : (Agenda.empty limit).live? id = none := by simp [live?, empty]
  have unserved : ¬ (Agenda.empty limit).Live request := by
    rintro ⟨id, entry, live, -⟩
    rw [missing] at live
    cases live
  have consistent : (Agenda.empty limit).Consistent := by
    refine ⟨⟨?_, ?_, ?_, ?_, ?_, List.nodup_nil⟩, ?_⟩
    · intro request id found
      cases found
    · intro id entry live
      rw [missing] at live
      cases live
    · intro id entry live
      rw [missing] at live
      cases live
    · intro id entry live
      rw [missing] at live
      cases live
    · intro id id_mem
      cases id_mem
    · intro waiter server
      simp [waitingOn, waitersOf, missing]
  cases created : (Agenda.empty limit).create request with
  | error failure =>
      rw [seed, created] at seeded
      cases seeded
  | ok pair =>
      rcases pair with ⟨after, id⟩
      rw [seed, created] at seeded
      cases seeded
      have after_consistent := consistent.create created unserved
      have entry_cases {other : JobId} {entry : Entry} (live : after.live? other = some entry) :
          entry = ⟨some request.job, request, 0, [], []⟩ := by
        rw [live?_create created] at live
        split at live
        · cases live
          rfl
        · rw [missing] at live
          cases live
      have enlarged := enlarged_create created unserved
      refine ⟨⟨⟨after_consistent.serves, after_consistent.served, after_consistent.counted,
        after_consistent.idle, after_consistent.queued, after_consistent.distinct⟩,
        after_consistent.converse⟩, ⟨id, rfl, ?_, ?_⟩, enlarged.finished, enlarged.failure, ?_, ?_, ?_⟩
      · rcases create_eq created with ⟨rfl, rfl⟩
        simp [Agenda.created, empty]
      · intro entry live
        rw [entry_cases live]
      · rintro other state ⟨holder, entry, live, rfl, stored⟩
        rw [entry_cases live] at stored ⊢
        cases stored
        exact ⟨rfl, rfl⟩
      · rintro other ⟨holder, entry, live, rfl⟩
        rw [entry_cases live]
      · rintro waiter server ⟨holder, entry, live, -, awaited, awaited_mem, -⟩
        rw [entry_cases live] at awaited_mem
        cases awaited_mem

section Assign

variable {agenda after : Agenda} {id server : JobId} {job : Job} {request : Request}

theorem assign_spec (consistent : agenda.Consistent) (live : id < agenda.created)
    (assigned : agenda.assign id job request = .ok (after, server)) :
    after.Consistent ∧ Enlarged [request] agenda after ∧ after.Serves server request ∧
      server ≠ id := by
  rw [assign] at assigned
  split at assigned
  · rename_i active found
    split at assigned
    · cases assigned
    · rename_i allowed
      cases assigned
      rw [not_or] at allowed
      exact ⟨consistent, .refl _, consistent.serves found, allowed.1⟩
  · rename_i inactive
    have unserved : ¬ agenda.Live request := by
      rintro ⟨other, entry, other_live, rfl⟩
      rw [consistent.served other_live] at inactive
      cases inactive
    have enlarged := enlarged_create assigned unserved
    obtain rfl := (create_eq assigned).1
    refine ⟨consistent.create assigned unserved, enlarged, ?_, ?_⟩
    · exact ⟨⟨some request.job, request, 0, [], []⟩, by rw [live?_create assigned, if_pos rfl], rfl⟩
    · exact Ne.symm (Nat.ne_of_lt live)

theorem assignAll_spec {requests : List Request} {servers : List JobId}
    (consistent : agenda.Consistent) (live : id < agenda.created)
    (assigned : agenda.assignAll id job requests = (after, .ok servers)) :
    after.Consistent ∧ Enlarged requests agenda after ∧ id ∉ servers ∧
      (∀ server ∈ servers, ∃ request ∈ requests, after.Serves server request) ∧
        ∀ request ∈ requests, ∃ server ∈ servers, after.Serves server request := by
  induction requests generalizing agenda servers with
  | nil =>
      rw [assignAll] at assigned
      cases assigned
      exact ⟨consistent, .refl _, by simp, by simp, by simp⟩
  | cons request rest ih =>
      rw [assignAll] at assigned
      cases first_eq : agenda.assign id job request with
      | error failure =>
          rw [first_eq] at assigned
          cases assigned
      | ok first =>
          rcases first with ⟨middle, server⟩
          rcases assign_spec consistent live first_eq with
            ⟨middle_consistent, enlarged, serves, different⟩
          cases rest_eq : middle.assignAll id job rest with
          | mk last outcome =>
              cases outcome with
              | error failure =>
                  rw [first_eq] at assigned
                  dsimp only at assigned
                  rw [rest_eq] at assigned
                  cases assigned
              | ok others =>
                  rw [first_eq] at assigned
                  dsimp only at assigned
                  rw [rest_eq] at assigned
                  cases assigned
                  rcases ih middle_consistent (Nat.lt_of_lt_of_le live enlarged.created_le)
                    rest_eq with ⟨last_consistent, rest_enlarged, absent, serve, served⟩
                  have first_serves := rest_enlarged.serves serves
                  refine ⟨last_consistent, enlarged.trans rest_enlarged, ?_, ?_, ?_⟩
                  · rw [List.mem_cons, not_or]
                    exact ⟨Ne.symm different, absent⟩
                  · intro other other_mem
                    rcases List.mem_cons.mp other_mem with rfl | other_mem
                    · exact ⟨request, List.mem_cons_self, first_serves⟩
                    · rcases serve other other_mem with ⟨asked, asked_mem, other_serves⟩
                      exact ⟨asked, List.mem_cons_of_mem request asked_mem, other_serves⟩
                  · intro asked asked_mem
                    rcases List.mem_cons.mp asked_mem with rfl | asked_mem
                    · exact ⟨server, List.mem_cons_self, first_serves⟩
                    · rcases served asked asked_mem with ⟨other, other_mem, other_serves⟩
                      exact ⟨other, List.mem_cons_of_mem server other_mem, other_serves⟩

end Assign

section Park

variable {agenda : Agenda} {waiter : JobId}

/-- An entry with one more that waits for it some number of times. -/
def awaitedBy (waiter : JobId) (times : Nat) (entry : Entry) : Entry :=
  { entry with waiters := entry.waiters ++ List.replicate times waiter }

theorem live?_addWaiter (server other : JobId) :
    (addWaiter waiter agenda server).live? other =
      if server = other then (agenda.live? other).map (awaitedBy waiter 1)
      else agenda.live? other := by
  rw [addWaiter]
  cases live : agenda.live? server with
  | none =>
      dsimp only
      split
      · rename_i here
        rw [← here, live]
        rfl
      · rfl
  | some entry =>
      dsimp only
      rw [live?_setEntry live]
      split
      · rename_i here
        rw [← here, live]
        rfl
      · rfl

/-- The lists of waiting jobs are all that changes when servers learn who waits for them. -/
theorem foldl_addWaiter_frame (servers : List JobId) :
    ∃ entries, servers.foldl (addWaiter waiter) agenda = { agenda with entries } ∧
      entries.size = agenda.entries.size := by
  induction servers generalizing agenda with
  | nil => exact ⟨agenda.entries, rfl, rfl⟩
  | cons server rest ih =>
      have step : ∃ entries, addWaiter waiter agenda server = { agenda with entries } ∧
          entries.size = agenda.entries.size := by
        rw [addWaiter]
        split
        · exact ⟨_, rfl, Array.size_setIfInBounds⟩
        · exact ⟨agenda.entries, rfl, rfl⟩
      rcases step with ⟨entries, step_eq, size_eq⟩
      rcases @ih { agenda with entries } with ⟨others, rest_eq, rest_size⟩
      exact ⟨others, by rw [List.foldl_cons, step_eq, rest_eq], rest_size.trans size_eq⟩

theorem live?_foldl_addWaiter (servers : List JobId) (other : JobId) :
    (servers.foldl (addWaiter waiter) agenda).live? other =
      (agenda.live? other).map (awaitedBy waiter (servers.count other)) := by
  induction servers generalizing agenda with
  | nil =>
      cases live : agenda.live? other with
      | none => simp [live]
      | some entry => simp [live, awaitedBy]
  | cons server rest ih =>
      rw [List.foldl_cons, ih, live?_addWaiter]
      by_cases here : server = other
      · subst here
        rw [if_pos rfl, List.count_cons_self, Option.map_map]
        congr 1
        funext entry
        simp only [Function.comp_apply, awaitedBy, List.append_assoc]
        rfl
      · rw [if_neg here, List.count_cons_of_ne here]

variable {id : JobId} {entry : Entry} {job : Job} {servers : List JobId}

/-- The agenda after a job has been stored until its servers are done. -/
def parked (agenda : Agenda) (id : JobId) (entry : Entry) (job : Job) (servers : List JobId) :
    Agenda :=
  let stored := (servers.foldl (addWaiter id) agenda).setEntry id
    (some { entry with job := some job, pending := servers.length, waitingOn := servers })
  if servers.isEmpty then stored.enqueue id else stored

theorem suspend_eq {requests : List Request} {middle : Agenda}
    (assigned : agenda.assignAll id job requests = (middle, .ok servers))
    (live : middle.live? id = some entry) (absent : id ∉ servers) :
    agenda.suspend id job requests = middle.parked id entry job servers := by
  have told : (servers.foldl (addWaiter id) middle).live? id = some entry := by
    rw [live?_foldl_addWaiter, List.count_eq_zero_of_not_mem absent, live]
    simp [awaitedBy]
  rw [suspend, assigned]
  dsimp only
  rw [told]
  rfl

section Parked

variable (live : agenda.live? id = some entry)
include live

theorem live?_parked (other : JobId) :
    (agenda.parked id entry job servers).live? other =
      if id = other then
        some { entry with job := some job, pending := servers.length, waitingOn := servers }
      else (agenda.live? other).map (awaitedBy id (servers.count other)) := by
  have told : (servers.foldl (addWaiter id) agenda).live? id =
      some (awaitedBy id (servers.count id) entry) := by
    rw [live?_foldl_addWaiter, live]
    rfl
  rw [parked, ← live?_foldl_addWaiter, ← live?_setEntry told]
  split
  · rfl
  · rfl

theorem parked_of_live? {other : JobId} {before : Entry}
    (before_live : agenda.live? other = some before) : ∃ after,
      (agenda.parked id entry job servers).live? other = some after ∧
        after.request = before.request ∧ (id ≠ other → after.waitingOn = before.waitingOn) := by
  rw [live?_parked live]
  split
  · rename_i here
    subst here
    rw [live] at before_live
    cases before_live
    exact ⟨_, rfl, rfl, fun different => (different rfl).elim⟩
  · rw [before_live]
    exact ⟨_, rfl, rfl, fun _ => rfl⟩

theorem live?_of_parked {other : JobId} {after : Entry}
    (after_live : (agenda.parked id entry job servers).live? other = some after) :
    ∃ before, agenda.live? other = some before ∧ after.request = before.request ∧
      ((id = other ∧ after.job = some job ∧ after.waitingOn = servers) ∨
        (id ≠ other ∧ after.job = before.job ∧ after.waitingOn = before.waitingOn)) := by
  rw [live?_parked live] at after_live
  split at after_live
  · rename_i here
    cases after_live
    exact ⟨entry, here ▸ live, rfl, .inl ⟨here, rfl, rfl⟩⟩
  · rename_i different
    rcases Option.map_eq_some_iff.mp after_live with ⟨before, before_live, rfl⟩
    exact ⟨before, before_live, rfl, .inr ⟨different, rfl, rfl⟩⟩

theorem serves_parked_iff {other : JobId} {request : Request} :
    (agenda.parked id entry job servers).Serves other request ↔ agenda.Serves other request := by
  constructor
  · rintro ⟨after, after_live, request_eq⟩
    rcases live?_of_parked live after_live with ⟨before, before_live, same, -⟩
    exact ⟨before, before_live, same.symm.trans request_eq⟩
  · rintro ⟨before, before_live, request_eq⟩
    rcases parked_of_live? live before_live with ⟨after, after_live, same, -⟩
    exact ⟨after, after_live, same.trans request_eq⟩

omit live in
theorem parked_frame : (agenda.parked id entry job servers).active = agenda.active ∧
    (agenda.parked id entry job servers).created = agenda.created ∧
    (agenda.parked id entry job servers).root = agenda.root ∧
    (agenda.parked id entry job servers).finished = agenda.finished ∧
    (agenda.parked id entry job servers).failure = agenda.failure ∧
    (agenda.parked id entry job servers).ready =
      if servers = [] then agenda.ready ++ [id] else agenda.ready := by
  rcases @foldl_addWaiter_frame agenda id servers with
    ⟨entries, told_eq, size_eq⟩
  rw [parked, told_eq]
  cases servers with
  | nil => simp [setEntry, enqueue, created, size_eq]
  | cons server rest => simp [setEntry, created, size_eq]

theorem waitingOn_parked (other : JobId) : (agenda.parked id entry job servers).waitingOn other =
    if id = other then servers else agenda.waitingOn other := by
  by_cases here : id = other
  · subst here
    simp [waitingOn, live?_parked live]
  · cases other_live : agenda.live? other with
    | some found => simp [waitingOn, live?_parked live, here, other_live, awaitedBy]
    | none => simp [waitingOn, live?_parked live, here, other_live]

theorem waitersOf_parked (absent : id ∉ servers)
    (all_live : ∀ server ∈ servers, ∃ served, agenda.live? server = some served) (other : JobId) :
    (agenda.parked id entry job servers).waitersOf other =
      agenda.waitersOf other ++ List.replicate (servers.count other) id := by
  by_cases here : id = other
  · subst here
    simp [waitersOf, live?_parked live, live, List.count_eq_zero_of_not_mem absent]
  · cases other_live : agenda.live? other with
    | some found => simp [waitersOf, live?_parked live, here, other_live, awaitedBy]
    | none =>
        have unasked : other ∉ servers := by
          intro other_mem
          rcases all_live other other_mem with ⟨served, served_live⟩
          rw [other_live] at served_live
          cases served_live
        simp [waitersOf, live?_parked live, here, other_live, List.count_eq_zero_of_not_mem unasked]

omit live in
theorem mem_ready_parked {other : JobId}
    (ready : other ∈ (agenda.parked id entry job servers).ready) :
    other ∈ agenda.ready ∨ (other = id ∧ servers = []) := by
  rcases @parked_frame agenda id entry job servers with ⟨-, -, -, -, -, ready_eq⟩
  rw [ready_eq] at ready
  split at ready
  · rename_i none
    exact (List.mem_append.mp ready).imp_right fun new => ⟨List.mem_singleton.mp new, none⟩
  · exact .inl ready

end Parked

theorem Consistent.parked (consistent : agenda.Consistent) (live : agenda.live? id = some entry)
    (job_none : entry.job = none) (absent : id ∉ servers)
    (all_live : ∀ server ∈ servers, ∃ served, agenda.live? server = some served) :
    (agenda.parked id entry job servers).Consistent := by
  rcases @parked_frame agenda id entry job servers with ⟨active_eq, -, -, -, -, ready_eq⟩
  have active_iff (request : Request) :
      (agenda.parked id entry job servers).active? request = agenda.active? request := by
    rw [active?, active_eq]
    rfl
  have not_ready : id ∉ agenda.ready := fun ready => (consistent.of_ready live ready).1 job_none
  refine ⟨⟨?_, ?_, ?_, ?_, ?_, ?_⟩, ?_⟩
  · intro request other found
    rw [active_iff] at found
    exact (serves_parked_iff live).mpr (consistent.serves found)
  · intro other after after_live
    rcases live?_of_parked live after_live with ⟨before, before_live, same, -⟩
    rw [active_iff, same]
    exact consistent.served before_live
  · intro other after after_live
    rw [live?_parked live] at after_live
    split at after_live
    · cases after_live
      rfl
    · rcases Option.map_eq_some_iff.mp after_live with ⟨before, before_live, rfl⟩
      have counted := consistent.counted before_live
      exact counted
  · intro other after after_live after_none
    rcases live?_of_parked live after_live with ⟨before, before_live, -, here | elsewhere⟩
    · rw [here.2.1] at after_none
      cases after_none
    · rw [elsewhere.2.2]
      exact consistent.idle before_live (elsewhere.2.1.symm.trans after_none)
  · intro other other_mem
    rw [live?_parked live]
    rcases mem_ready_parked other_mem with old | ⟨rfl, none⟩
    · have different : id ≠ other := by
        rintro rfl
        exact not_ready old
      rcases consistent.queued old with ⟨before, state, before_live, stored, idle⟩
      rw [if_neg different, before_live]
      exact ⟨_, state, rfl, stored, idle⟩
    · rw [if_pos rfl]
      exact ⟨_, job, rfl, rfl, none⟩
  · rw [ready_eq]
    split
    · exact consistent.distinct_enqueued not_ready
    · exact consistent.distinct
  · intro waiter server
    have counted := consistent.converse waiter server
    rw [waitingOn_parked live, waitersOf_parked live absent all_live, List.count_append,
      List.count_replicate]
    by_cases here : id = waiter
    · -- the job was handed out and waited for nothing, so all its waits are new
      subst here
      rw [waitingOn_eq live, consistent.idle live job_none, List.count_nil] at counted
      simp [← counted]
    · simp [here, counted]

end Park

section Suspend

variable {agenda : Agenda} {id : JobId} {request : Request} {job : Job} {requests : List Request}

/-- What callers learn when a job is suspended. -/
structure Suspended (agenda : Agenda) (request : Request) (job : Job) (requests : List Request)
    (after : Agenda) : Prop where
  consistent : after.Consistent
  stores : ∀ {other state}, after.Stores other state → (other = request ∧ state = job) ∨
    (other ≠ request ∧ (agenda.Stores other state ∨
      (other ∈ requests ∧ ¬ agenda.Live other ∧ state = other.job)))
  live : ∀ {other}, after.Live other → agenda.Live other ∨ other ∈ requests
  waits : ∀ {waiter server}, after.Waits waiter server ↔
    agenda.Waits waiter server ∨ (waiter = request ∧ server ∈ requests)
  rooted : ∀ {root}, agenda.Rooted root → after.Rooted root
  finished : after.finished = agenda.finished
  failure : after.failure = agenda.failure

/-- A suspended job waits for those it asked for, and the others wait as before. -/
theorem waits_parked_iff {middle : Agenda} {entry : Entry} {servers : List JobId}
    (consistent : agenda.Consistent) (live : agenda.live? id = some entry) (job_none : entry.job = none)
    (enlarged : Enlarged requests agenda middle)
    (asked_iff : ∀ {other}, (∃ server ∈ servers, middle.Serves server other) ↔ other ∈ requests)
    {waiter server : Request} : (middle.parked id entry job servers).Waits waiter server ↔
      agenda.Waits waiter server ∨ (waiter = entry.request ∧ server ∈ requests) := by
  have middle_live := enlarged.kept live
  constructor
  · rintro ⟨holder, after, after_live, rfl, awaited, awaited_mem, serves⟩
    rw [serves_parked_iff middle_live] at serves
    rcases live?_of_parked middle_live after_live with ⟨before, before_live, same, here | elsewhere⟩
    · rcases here with ⟨rfl, -, waitingOn⟩
      rw [middle_live] at before_live
      cases before_live
      exact .inr ⟨same, asked_iff.mp ⟨awaited, waitingOn ▸ awaited_mem, serves⟩⟩
    · rcases elsewhere with ⟨different, -, waitingOn⟩
      rw [waitingOn] at awaited_mem
      rcases enlarged.fresh before_live with old | ⟨-, shape, -⟩
      · refine .inl ⟨holder, before, old, same.symm, awaited, awaited_mem, ?_⟩
        rcases consistent.awaited old awaited_mem with ⟨served, served_live, -⟩
        rcases serves with ⟨found, found_live, request_eq⟩
        rw [enlarged.kept served_live] at found_live
        cases found_live
        exact ⟨served, served_live, request_eq⟩
      · rw [shape] at awaited_mem
        cases awaited_mem
  · rintro (⟨holder, before, before_live, rfl, awaited, awaited_mem, serves⟩ | ⟨rfl, asked⟩)
    · have different : id ≠ holder := by
        rintro rfl
        rw [live] at before_live
        cases before_live
        rw [consistent.idle live job_none] at awaited_mem
        cases awaited_mem
      rcases parked_of_live? middle_live (enlarged.kept before_live) with
        ⟨after, after_live, same, waitingOn⟩
      exact ⟨holder, after, after_live, same, awaited, waitingOn different ▸ awaited_mem,
        (serves_parked_iff middle_live).mpr (enlarged.serves serves)⟩
    · rcases asked_iff.mpr asked with ⟨awaited, awaited_mem, serves⟩
      have stored := @live?_parked middle id entry job servers middle_live id
      rw [if_pos rfl] at stored
      exact ⟨id, _, stored, rfl, awaited, awaited_mem, (serves_parked_iff middle_live).mpr serves⟩

theorem suspended {middle : Agenda} {entry : Entry} {servers : List JobId}
    (consistent : agenda.Consistent) (live : agenda.live? id = some entry)
    (job_none : entry.job = none) (middle_consistent : middle.Consistent)
    (enlarged : Enlarged requests agenda middle) (absent : id ∉ servers)
    (serve : ∀ server ∈ servers, ∃ request ∈ requests, middle.Serves server request)
    (served : ∀ request ∈ requests, ∃ server ∈ servers, middle.Serves server request) :
    agenda.Suspended entry.request job requests (middle.parked id entry job servers) := by
  have middle_live := enlarged.kept live
  have all_live : ∀ server ∈ servers, ∃ served, middle.live? server = some served := by
    intro server server_mem
    rcases serve server server_mem with ⟨_, _, found, found_live, -⟩
    exact ⟨found, found_live⟩
  have asked_iff {other : Request} :
      (∃ server ∈ servers, middle.Serves server other) ↔ other ∈ requests := by
    constructor
    · rintro ⟨server, server_mem, serves⟩
      rcases serve server server_mem with ⟨asked, asked_mem, asked_serves⟩
      exact asked_serves.unique serves ▸ asked_mem
    · exact served other
  rcases @parked_frame middle id entry job servers with
    ⟨-, created_eq, root_eq, finished_eq, failure_eq, -⟩
  refine ⟨middle_consistent.parked middle_live job_none absent all_live, ?_, ?_, ?_, ?_,
    finished_eq.trans enlarged.finished, failure_eq.trans enlarged.failure⟩
  · rintro other state ⟨holder, after, after_live, rfl, stored⟩
    rcases live?_of_parked middle_live after_live with ⟨before, before_live, same, here | elsewhere⟩
    · rcases here with ⟨rfl, job_eq, -⟩
      rw [middle_live] at before_live
      cases before_live
      rw [job_eq] at stored
      cases stored
      exact .inl ⟨same, rfl⟩
    · rcases elsewhere with ⟨different, job_eq, -⟩
      refine .inr ⟨?_, ?_⟩
      · intro same_request
        exact different (middle_consistent.unique ⟨entry, middle_live, rfl⟩
          ⟨before, before_live, same.symm.trans same_request⟩)
      · rcases enlarged.fresh before_live with old | ⟨-, shape, asked, unserved⟩
        · exact .inl ⟨holder, before, old, same.symm, job_eq.symm.trans stored⟩
        · rw [same]
          refine .inr ⟨asked, unserved, ?_⟩
          rw [job_eq, shape] at stored
          cases stored
          rfl
  · rintro other ⟨holder, serves⟩
    rcases (serves_parked_iff middle_live).mp serves with ⟨before, before_live, rfl⟩
    rcases enlarged.fresh before_live with old | ⟨-, -, asked, -⟩
    · exact .inl ⟨holder, before, old, rfl⟩
    · exact .inr asked
  · exact waits_parked_iff consistent live job_none enlarged asked_iff
  · intro root rooted
    rcases enlarged.rooted rooted with ⟨rootId, middle_root, created, served⟩
    refine ⟨rootId, root_eq.trans middle_root, created_eq ▸ created, ?_⟩
    intro after after_live
    rcases live?_of_parked middle_live after_live with ⟨before, before_live, same, -⟩
    rw [same]
    exact served before_live

/-- A suspension either ends the run with a failure or stores the job. -/
theorem suspend_spec (consistent : agenda.Consistent) (handedOut : agenda.HandedOut id request) :
    (agenda.suspend id job requests).failure ≠ none ∨
      agenda.Suspended request job requests (agenda.suspend id job requests) := by
  rcases handedOut with ⟨entry, live, rfl, job_none⟩
  cases assigned : agenda.assignAll id job requests with
  | mk middle outcome =>
      cases outcome with
      | error failure =>
          refine .inl ?_
          rw [suspend, assigned]
          exact fail_ne_none middle failure
      | ok servers =>
          rcases assignAll_spec consistent (lt_created live) assigned with
            ⟨middle_consistent, enlarged, absent, serve, served⟩
          rw [suspend_eq assigned (enlarged.kept live) absent]
          exact .inr (suspended consistent live job_none middle_consistent enlarged absent serve
            served)

end Suspend

end Agenda

end Cascades
