import Cascades.Proofs.Search.Liveness
import Cascades.Proofs.Search.Mirrors

/-!
# The root job

A run has finished when its root job is done. Nobody waits for that job, and no other job is left
then. While a search for implementations explores, its root job has no counterpart in the agenda of
a search that only explores, which its agenda mirrors. Afterwards the root job is left alone.
-/

namespace Cascades

open Relation

/-! ## The end of the root job -/

namespace Agenda

section Root

variable {agenda : Agenda} {limit : Nat} {request : Request} {out : List JobId}

/-- Once the root job is done, the agenda has finished. -/
theorem settle_root {agenda : Agenda} {id : JobId} {entry : Entry}
    (live : agenda.live? id = some entry) (rooted : agenda.root = some id)
    (running : agenda.failure = none) :
    (agenda.settle id (.ok .done)).finished = true ∧
      (agenda.settle id (.ok .done)).failure = none ∧
        (agenda.settle id (.ok .done)).created = agenda.created := by
  let lowered : Agenda := { agenda with outstanding := agenda.outstanding - 1 }
  have lowered_live : lowered.live? id = some entry := live
  rcases @foldl_notify_frame (lowered.removed id entry.request) id entry.waiters with
    ⟨entries, ready, told_eq, size_eq⟩
  rw [settle, complete_eq lowered_live, told_eq]
  refine ⟨?_, running, size_eq.trans Array.size_setIfInBounds⟩
  simp [removed, setEntry, lowered, rooted]

/-- The root job of the smaller agenda is live if the larger one completes it. -/
theorem Mirrors.root_live {embedding : Embedding} {goal : Goal} {small large : Agenda}
    (mirrors : small.Mirrors embedding goal large)
    (running : (large.settle (embedding.place 0) (.ok .done)).failure = none) :
    ∃ entry, small.live? 0 = some entry := by
  cases found : small.live? 0 with
  | some entry => exact ⟨entry, rfl⟩
  | none =>
      have missing : ({ large with outstanding := large.outstanding - 1 } : Agenda).live?
          (embedding.place 0) = none := mirrors.missing found
      rw [Agenda.settle, Agenda.complete, missing] at running
      exact (fail_ne_none _ _ running).elim

/-- Nobody waits for the root job. -/
theorem Scheduled.root_waiters {out : List JobId} {id : JobId} {entry : Entry}
    (scheduled : agenda.Scheduled out) (rooted : agenda.root = some id)
    (live : agenda.live? id = some entry) : entry.waiters = [] := by
  rcases scheduled.crowned with ⟨crown, crowned⟩
  cases rooted.symm.trans crowned.rooted
  by_contra awaited
  rcases List.exists_mem_of_ne_nil _ awaited with ⟨waiter, waiter_mem⟩
  have counted := scheduled.consistent.converse waiter id
  rw [waitersOf_eq live] at counted
  have awaits : agenda.Awaits waiter id := by
    rw [Awaits, ← List.count_pos_iff, counted]
    exact List.count_pos_iff.mpr waiter_mem
  rcases live_of_awaits awaits with ⟨found, found_live, -⟩
  have path := awaited_by_root scheduled.consistent scheduled.acyclic crowned.asked found_live
  exact scheduled.acyclic id (.tail' path awaits)

/-- When the root job is done, it is the only one that there was. -/
theorem Scheduled.root_alone {out : List JobId} {id : JobId} {entry : Entry}
    (scheduled : agenda.Scheduled out) (id_mem : id ∈ out) (rooted : agenda.root = some id)
    (running : agenda.failure = none) (live : agenda.live? id = some entry) :
    (∀ {other}, other ≠ id → agenda.live? other = none) ∧ agenda.ready = [] := by
  let lowered : Agenda := { agenda with outstanding := agenda.outstanding - 1 }
  have lowered_live : lowered.live? id = some entry := live
  have done_eq : agenda.settle id (.ok .done) =
      { lowered.removed id entry.request with
        finished := (lowered.removed id entry.request).finished ||
          (lowered.removed id entry.request).root == some id } := by
    rw [settle, complete_eq lowered_live, scheduled.root_waiters rooted live]
    rfl
  have later := scheduled.complete id_mem
  have none_live := later.none_live (settle_root live rooted running).1
  have others {other : JobId} (different : other ≠ id) : agenda.live? other = none := by
    have gone := none_live other
    rw [done_eq] at gone
    have removed_live := live?_removed lowered_live other
    rw [if_neg (Ne.symm different)] at removed_live
    exact removed_live.symm.trans gone
  refine ⟨others, ?_⟩
  rw [List.eq_nil_iff_forall_not_mem]
  intro other other_mem
  have ready : other ∈ (agenda.settle id (.ok .done)).ready := by
    rw [done_eq]
    exact other_mem
  rcases later.consistent.queued ready with ⟨found, -, found_live, -⟩
  rw [none_live other] at found_live
  cases found_live

/-! ## The limit stays -/

theorem suspend_limit (id : JobId) (job : Job) (requests : List Request) :
    (agenda.suspend id job requests).limit = agenda.limit := by
  rcases @assignAll_frame agenda id job requests with ⟨entries, ready, active, frame⟩
  rw [suspend]
  cases assigned : agenda.assignAll id job requests with
  | mk middle outcome =>
      rw [assigned] at frame
      dsimp only at frame
      cases outcome with
      | error failure =>
          rw [frame]
          rfl
      | ok servers =>
          rcases @foldl_addWaiter_frame middle id servers with ⟨told, told_eq, -⟩
          dsimp only
          rw [told_eq, frame]
          split
          · rfl
          · split
            · rfl
            · rfl

theorem complete_limit (id : JobId) : (agenda.complete id).limit = agenda.limit := by
  cases live : agenda.live? id with
  | none =>
      rw [complete, live]
      rfl
  | some entry =>
      rcases @foldl_notify_frame (agenda.removed id entry.request) id entry.waiters with
        ⟨entries, ready, told_eq, -⟩
      rw [complete_eq live, told_eq]
      rfl

theorem next_limit (cancelled : Bool) : (agenda.next cancelled).1.limit = agenda.limit := by
  have taken (ready : List JobId) : (agenda.take ready).1.limit = agenda.limit := by
    induction ready with
    | nil =>
        rw [take]
        split
        · rfl
        · rfl
    | cons id rest ih =>
        rw [take]
        split
        · rfl
        · exact ih
  rw [next]
  split
  · rfl
  · split
    · rfl
    · exact taken _

theorem Reached.limit_eq (reached : Reached limit request agenda out) : agenda.limit = limit := by
  induction reached with
  | seed seeded => rw [seed_eq seeded]
  | rest _ next_eq ih =>
      exact (congrArg (·.1.limit) next_eq).symm.trans ((next_limit _).trans ih)
  | handOut _ next_eq ih =>
      exact (congrArg (·.1.limit) next_eq).symm.trans ((next_limit _).trans ih)
  | settle outcome _ _ ih =>
      rcases outcome with failure | _ | ⟨job, requests⟩
      · exact ih
      · exact (complete_limit _).trans ih
      · exact (suspend_limit _ _ _).trans ih

end Root

end Agenda

/-! ## Agendas with a single job -/

namespace Agenda

/-- The root job, which is to implement a group, is the only job that is left, and it is ready. -/
structure Sole (limit : Nat) (root : GroupId) (exploreRequired : Bool) (agenda : Agenda) :
    Prop where
  limit : agenda.limit = limit
  live : agenda.live? 0 = some
    ⟨some (.group ⟨root, .implement, exploreRequired, 0⟩), .group root .implement, 0, [], []⟩
  others : ∀ {id}, id ≠ 0 → agenda.live? id = none
  active : ∀ request, agenda.active? request =
    if request = .group root .implement then some 0 else none
  ready : agenda.ready = [0]
  outstanding : agenda.outstanding = 0
  rooted : agenda.root = some 0
  running : agenda.failure = none
  unfinished : agenda.finished = false

section Sole

variable {limit gap : Nat} {root : GroupId} {agenda small large : Agenda} {exploreRequired : Bool}

theorem sole_seed (seeded : (empty limit).seed (.group root .implement) = .ok agenda) :
    agenda.Sole limit root false ∧ agenda.created = 1 := by
  rw [seed_eq seeded]
  refine ⟨⟨rfl, rfl, ?_, ?_, rfl, rfl, rfl, rfl, rfl⟩, rfl⟩
  · intro id other
    rw [live?, Array.getElem?_eq_none]
    · rfl
    · exact Nat.one_le_iff_ne_zero.mpr other
  · intro request
    rw [active?, List.lookup_cons, List.lookup_nil]
    by_cases here : request = .group root .implement
    · simp [here]
    · simp [here, beq_false_of_ne here]

/-- The agenda after its only job has been handed out. -/
def soleTaken (agenda : Agenda) (root : GroupId) : Agenda :=
  { agenda.setEntry 0 (some ⟨none, .group root .implement, 0, [], []⟩) with
    ready := []
    outstanding := agenda.outstanding + 1 }

theorem Sole.next (sole : agenda.Sole limit root exploreRequired) : agenda.next false =
    (agenda.soleTaken root, some (0, .group ⟨root, .implement, exploreRequired, 0⟩)) := by
  rw [Agenda.next, if_neg (by simp [sole.running, sole.unfinished]), sole.ready]
  rw [if_neg Bool.false_ne_true, take, sole.live]
  rfl

/-- Agendas with the same single job mirror each other, once they have handed it out. -/
theorem Sole.mirrors {others : Bool} (small_sole : small.Sole limit root exploreRequired)
    (large_sole : large.Sole limit root others) (small_created : small.created = 1)
    (large_created : large.created = 1 + gap) :
    (small.soleTaken root).Mirrors ⟨1, gap, [], fun _ => none⟩ .implement
      (large.soleTaken root) := by
  have live {agenda : Agenda} {required : Bool} (sole : agenda.Sole limit root required)
      (id : JobId) : (agenda.soleTaken root).live? id =
        if id = 0 then some ⟨none, .group root .implement, 0, [], []⟩ else none := by
    have replaced := live?_setEntry sole.live
      (some ⟨none, .group root .implement, 0, [], []⟩) id
    rw [show (agenda.soleTaken root).live? id = _ from replaced]
    by_cases here : id = 0
    · rw [if_pos here, if_pos here.symm]
    · rw [if_neg here, if_neg (Ne.symm here), sole.others here]
  have created {agenda : Agenda} : (agenda.soleTaken root).created = agenda.created :=
    Array.size_setIfInBounds
  have place_zero {id : Nat} :
      Embedding.place ⟨1, gap, [], fun _ => none⟩ id = 0 ↔ id = 0 := by
    constructor
    · exact Embedding.place_eq_zero _
    · rintro rfl
      rfl
  refine ⟨large_sole.limit.trans small_sole.limit.symm, ?_, ?_, ?_, ?_, ?_, ?_, rfl, ?_,
    ⟨small_sole.rooted, large_sole.rooted⟩, ⟨small_sole.running, large_sole.running⟩,
    ⟨small_sole.unfinished, large_sole.unfinished⟩⟩
  · rw [created, small_created]
    exact Nat.one_pos
  · rw [created, small_created]
  · rw [created, created, small_created, large_created]
  · intro id
    rw [live small_sole, live large_sole]
    by_cases here : id = 0
    · rw [if_pos here, if_pos (place_zero.mpr here), Option.map_some, Embedding.entry, if_pos here]
      rfl
    · rw [if_neg here, if_neg (mt place_zero.mp here)]
      rfl
  · intro id free
    rw [live large_sole, if_neg]
    exact fun here => free 0 here.symm
  · intro request _
    change large.active? request = (small.active? request).map _
    rw [small_sole.active, large_sole.active]
    split
    · rfl
    · rfl
  · change large.outstanding + 1 = small.outstanding + 1
    rw [small_sole.outstanding, large_sole.outstanding]

end Sole

end Agenda

/-! ## Asking for the exploration -/

/-- The entry of a root job that is to implement a group and waits for other jobs. -/
def Entry.implementing (root : GroupId) (awaited : List JobId) : Entry :=
  ⟨some (.group ⟨root, .implement, true, 0⟩), .group root .implement, awaited.length, [], awaited⟩

/-- How the jobs of an exploration are numbered below a root job that is to implement the group. -/
def Embedding.exploration (root : GroupId) : Embedding where
  base := 0
  gap := 1
  guests := [0]
  apart := fun id => if id = 0 then some (.implementing root [1]) else none

namespace Agenda

variable {limit : Nat} {root : GroupId} {agenda : Agenda}

/-- The agenda after the root job has asked for the exploration of its group. -/
def forked (limit : Nat) (root : GroupId) : Agenda where
  limit := limit
  entries := #[
    some (.implementing root [1]),
    some ⟨some (.group ⟨root, .explore, false, 0⟩), .group root .explore, 0, [0], []⟩]
  ready := [1]
  active := [(.group root .explore, 1), (.group root .implement, 0)]
  outstanding := 0
  root := some 0
  finished := false
  failure := none

/-- The first step of a root job that is to implement a group leads there, unless it is refused. -/
theorem settle_fork (seeded : (empty limit).seed (.group root .implement) = .ok agenda)
    (running : ((agenda.soleTaken root).settle 0 (.ok (.suspend (.group ⟨root, .implement, true, 0⟩)
      [.group root .explore]))).failure = none) :
    (agenda.soleTaken root).settle 0 (.ok (.suspend (.group ⟨root, .implement, true, 0⟩)
      [.group root .explore])) = forked limit root := by
  let asking : Agenda := ⟨limit, #[some ⟨none, .group root .implement, 0, [], []⟩], [],
    [(.group root .implement, 0)], 0, some 0, false, none⟩
  have settle_eq : (agenda.soleTaken root).settle 0 (.ok (.suspend
      (.group ⟨root, .implement, true, 0⟩) [.group root .explore])) =
        asking.suspend 0 (.group ⟨root, .implement, true, 0⟩) [.group root .explore] := by
    rw [seed_eq seeded]
    rfl
  have different : Request.group root .explore ≠ .group root .implement := by simp
  have inactive : asking.active? (.group root .explore) = none := by
    simp [asking, active?, List.lookup_cons, beq_false_of_ne different]
  have kept : asking.active.filter (fun served => served.1 != .group root .explore) =
      asking.active := by
    simp [asking]
  rw [settle_eq, suspend, assignAll, assign, inactive, create, kept] at running ⊢
  by_cases full : asking.limit ≤ asking.created
  · rw [if_pos full] at running
    exact (fail_ne_none _ _ running).elim
  · rw [if_neg full]
    rfl

theorem mirrors_fork (seeded : (empty limit).seed (.group root .explore) = .ok agenda) :
    agenda.Mirrors (.exploration root) .explore (forked limit root) := by
  rw [seed_eq seeded]
  refine ⟨rfl, Nat.one_pos, Nat.zero_le _, rfl, ?_, ?_, ?_, rfl, rfl, ⟨rfl, rfl⟩, ⟨rfl, rfl⟩,
    ⟨rfl, rfl⟩⟩
  · intro id
    cases id with
    | zero => rfl
    | succ id => rfl
  · intro id free
    cases id with
    | zero => rfl
    | succ id => exact (free id rfl).elim
  · intro request within
    have other : request ≠ .group root .implement := by
      rintro rfl
      cases within rfl
    by_cases here : request = .group root .explore
    · subst here
      simp [active?, forked]
      rfl
    · simp [active?, forked, List.lookup_cons, beq_false_of_ne here, beq_false_of_ne other]

/-- When the exploration is over, the root job that has asked for it is ready again. -/
theorem Mirrors.settle_explored {small large : Agenda} {entry : Entry}
    (mirrors : small.Mirrors (.exploration root) .explore large)
    (live : small.live? 0 = some entry) (waiters_nil : entry.waiters = []) :
    ∃ entries active, large.settle 1 (.ok .done) =
        { large with
          entries, active, ready := large.ready ++ [0], outstanding := large.outstanding - 1 } ∧
      entries.size = large.entries.size ∧ ∀ id, (large.settle 1 (.ok .done)).live? id =
        if id = 0 then some (.implementing root []) else if id = 1 then none else large.live? id := by
  let lowered : Agenda := { large with outstanding := large.outstanding - 1 }
  have explored_live : lowered.live? 1 =
      some ((Embedding.exploration root).entry 0 entry) := mirrors.live live
  have waiters_eq : ((Embedding.exploration root).entry 0 entry).waiters = [0] := by
    rw [Embedding.entry, waiters_nil]
    rfl
  have removed_live (id : JobId) : (lowered.removed 1 entry.request).live? id =
      if 1 = id then none else large.live? id := live?_removed explored_live id
  have waiting_live : (lowered.removed 1 entry.request).live? 0 =
      some (.implementing root [1]) := by
    rw [removed_live, if_neg Nat.one_ne_zero]
    exact mirrors.apart 0 fun other => Nat.succ_ne_zero other
  let freed : Agenda :=
    ((lowered.removed 1 entry.request).setEntry 0 (some (.implementing root []))).enqueue 0
  have told : Agenda.notify 1 (lowered.removed 1 entry.request) 0 = freed := by
    rw [notify_eq waiting_live]
    rfl
  have done_eq : large.settle 1 (.ok .done) =
      { freed with finished := large.finished || large.root == some 1 } := by
    rw [Agenda.settle, complete_eq explored_live, waiters_eq, List.foldl_cons, List.foldl_nil,
      show ((Embedding.exploration root).entry 0 entry).request = entry.request from rfl, told]
    rfl
  have unfinished : (large.finished || large.root == some 1) = large.finished := by
    rw [mirrors.roots.2, mirrors.unfinished.2]
    rfl
  refine ⟨freed.entries, freed.active, ?_, ?_, ?_⟩
  · rw [done_eq, unfinished]
    rfl
  · exact Array.size_setIfInBounds.trans Array.size_setIfInBounds
  · intro id
    have replaced := live?_setEntry waiting_live (some (.implementing root [])) id
    rw [removed_live] at replaced
    rw [done_eq]
    refine replaced.trans ?_
    simp only [eq_comm]

/-- When the exploration is over, only the root job that has asked for it is left. -/
theorem Mirrors.sole {small large : Agenda} {entry : Entry}
    (mirrors : small.Mirrors (.exploration root) .explore large)
    (scheduled : small.Scheduled [0]) (live : small.live? 0 = some entry)
    (later : (large.settle 1 (.ok .done)).Scheduled []) :
    (large.settle 1 (.ok .done)).Sole large.limit root true ∧
      (large.settle 1 (.ok .done)).created = large.created := by
  rcases scheduled.root_alone List.mem_cons_self mirrors.roots.1 mirrors.running.1 live with
    ⟨others, small_ready⟩
  rcases mirrors.settle_explored live (scheduled.root_waiters mirrors.roots.1 live) with
    ⟨entries, active, done_eq, size_eq, done_live⟩
  have live_iff (id : JobId) : (large.settle 1 (.ok .done)).live? id =
      if id = 0 then some (.implementing root []) else none := by
    rw [done_live]
    rcases id with _ | _ | id
    · rfl
    · rfl
    · exact mirrors.missing (others (Nat.succ_ne_zero id))
  have zero_live : (large.settle 1 (.ok .done)).live? 0 = some (.implementing root []) :=
    live_iff 0
  have active_eq (request : Request) : (large.settle 1 (.ok .done)).active? request =
      if request = .group root .implement then some 0 else none := by
    split
    · rename_i here
      exact here ▸ later.consistent.served zero_live
    · rename_i elsewhere
      cases active : (large.settle 1 (.ok .done)).active? request with
      | none => rfl
      | some id =>
          rcases later.consistent.serves active with ⟨found, found_live, rfl⟩
          rw [live_iff] at found_live
          split at found_live
          · cases found_live
            exact (elsewhere rfl).elim
          · cases found_live
  refine ⟨⟨?_, zero_live, ?_, active_eq, ?_, later.outstanding, ?_, ?_, ?_⟩, ?_⟩
  · rw [done_eq]
  · intro id other
    rw [live_iff, if_neg other]
  · rw [done_eq]
    change large.ready ++ [0] = [0]
    rw [mirrors.ready, small_ready]
    rfl
  · rw [done_eq]
    exact mirrors.roots.2
  · rw [done_eq]
    exact mirrors.running.2
  · rw [done_eq]
    exact mirrors.unfinished.2
  · rw [done_eq]
    exact size_eq

end Agenda

end Cascades
