import Cascades.Proofs.Search.Effort

/-!
# Agendas that mirror each other

A larger agenda mirrors a smaller one if it holds the same jobs under other numbers, which wait for
each other in the same way, next to entries without a counterpart. Jobs without a counterpart may
wait for the root job of the smaller agenda, but they stay as they are until that job is done. As long
as the larger agenda does not fail, every operation leads to agendas that mirror each other again.
-/

namespace Cascades

open Relation

/--
How jobs are numbered in a larger agenda: those from a base on come after a gap. Guests are waiting
for the root job there, and what stands apart has no counterpart.
-/
structure Embedding where
  base : Nat
  gap : Nat
  guests : List JobId
  apart : JobId → Option Entry

namespace Embedding

variable (embedding : Embedding)

/-- The number of a job in the larger agenda. -/
def place (id : Nat) : Nat :=
  if id < embedding.base then id else id + embedding.gap

/-- The entry of a job in the larger agenda. -/
def entry (id : JobId) (entry : Entry) : Entry where
  job := entry.job
  request := entry.request
  pending := entry.pending
  waiters := (if id = 0 then embedding.guests else []) ++ entry.waiters.map embedding.place
  waitingOn := entry.waitingOn.map embedding.place

theorem place_injective : Function.Injective embedding.place := by
  intro first second same
  simp only [place] at same
  split at same <;> split at same <;> omega

theorem place_of_le {id : Nat} (base_le : embedding.base ≤ id) :
    embedding.place id = id + embedding.gap :=
  if_neg (Nat.not_lt.mpr base_le)

theorem place_eq_zero {id : Nat} (zero : embedding.place id = 0) : id = 0 := by
  rw [place] at zero
  split at zero <;> omega

end Embedding

namespace Agenda

/-- An agenda does what a smaller one does for the requests of a goal. -/
structure Mirrors (embedding : Embedding) (goal : Goal) (small large : Agenda) : Prop where
  limit : large.limit = small.limit
  started : 0 < small.created
  base_le : embedding.base ≤ small.created
  created : large.created = small.created + embedding.gap
  entries : ∀ id, large.live? (embedding.place id) = (small.live? id).map (embedding.entry id)
  apart : ∀ id, (∀ other, embedding.place other ≠ id) → large.live? id = embedding.apart id
  active : ∀ request : Request, request.Within goal →
    large.active? request = (small.active? request).map embedding.place
  ready : large.ready = small.ready.map embedding.place
  outstanding : large.outstanding = small.outstanding
  roots : small.root = some 0 ∧ large.root = some 0
  running : small.failure = none ∧ large.failure = none
  unfinished : small.finished = false ∧ large.finished = false

namespace Mirrors

variable {embedding : Embedding} {goal : Goal} {small large after : Agenda} {id server : JobId}
  {entry : Entry} {job : Job} {request : Request} {requests : List Request} {servers : List JobId}
  (mirrors : small.Mirrors embedding goal large)
include mirrors

theorem live (found : small.live? id = some entry) :
    large.live? (embedding.place id) = some (embedding.entry id entry) := by
  rw [mirrors.entries, found]
  rfl

theorem missing (none_live : small.live? id = none) :
    large.live? (embedding.place id) = none := by
  rw [mirrors.entries, none_live]
  rfl

/-! ## Waiting -/

theorem waitingOn (id : JobId) :
    large.waitingOn (embedding.place id) = (small.waitingOn id).map embedding.place := by
  cases found : small.live? id with
  | some entry => rw [waitingOn_eq found, waitingOn_eq (mirrors.live found), Embedding.entry]
  | none =>
      rw [Agenda.waitingOn, mirrors.missing found, Agenda.waitingOn, found]
      rfl

theorem transGen_iff (waiter target : JobId) :
    TransGen large.Awaits (embedding.place waiter) (embedding.place target) ↔
      TransGen small.Awaits waiter target := by
  have edge {first second : JobId} : large.Awaits (embedding.place first) second ↔
      ∃ other, small.Awaits first other ∧ embedding.place other = second := by
    rw [Awaits, mirrors.waitingOn, List.mem_map]
    rfl
  have path {node : JobId} (connected : TransGen large.Awaits (embedding.place waiter) node) :
      ∃ other, TransGen small.Awaits waiter other ∧ embedding.place other = node := by
    induction connected with
    | single awaits =>
        rcases edge.mp awaits with ⟨other, awaits, same⟩
        exact ⟨other, .single awaits, same⟩
    | tail _ awaits ih =>
        rcases ih with ⟨middle, before, rfl⟩
        rcases edge.mp awaits with ⟨other, awaits, same⟩
        exact ⟨other, .tail before awaits, same⟩
  constructor
  · intro connected
    rcases path connected with ⟨other, before, same⟩
    rwa [← embedding.place_injective same]
  · intro connected
    exact connected.lift embedding.place fun first second awaits => edge.mpr ⟨second, awaits, rfl⟩

theorem waitsFor (waiter target : JobId) :
    large.waitsFor (embedding.place waiter) (embedding.place target) =
      small.waitsFor waiter target := by
  rw [Bool.eq_iff_iff, waitsFor_iff, waitsFor_iff, mirrors.transGen_iff]

/-! ## Creating jobs -/

theorem create (created : large.create request = .ok (after, server)) :
    ∃ middle, small.create request = .ok (middle, small.created) ∧
      server = embedding.place small.created ∧ middle.Mirrors embedding goal after := by
  have room : ¬ small.limit ≤ small.created := by
    have large_room := (create_created created).2
    have created_eq := mirrors.created
    have limit_eq := mirrors.limit
    omega
  have place_eq := embedding.place_of_le mirrors.base_le
  have small_created : small.create request = .ok (_, small.created) := if_neg room
  refine ⟨_, small_created, ?_, ?_⟩
  · rw [(create_eq created).1, place_eq, mirrors.created]
  · have large_live := live?_create created
    have small_live := live?_create small_created
    rcases create_eq created with ⟨-, rfl⟩
    have fresh {other : JobId} : embedding.place other = large.created ↔ other = small.created := by
      rw [mirrors.created, ← place_eq]
      exact embedding.place_injective.eq_iff
    refine ⟨mirrors.limit, ?_, ?_, ?_, ?_, ?_, ?_, ?_, mirrors.outstanding, mirrors.roots,
      mirrors.running, mirrors.unfinished⟩
    · exact Nat.lt_of_lt_of_eq (Nat.succ_pos _) (Array.size_push _).symm
    · exact (mirrors.base_le.trans (Nat.le_succ _)).trans_eq (Array.size_push _).symm
    · have created_eq := mirrors.created
      simp only [Agenda.created, Array.size_push] at created_eq ⊢
      omega
    · intro other
      rw [large_live, small_live, mirrors.entries]
      by_cases here : other = small.created
      · rw [if_pos here, if_pos (fresh.mpr here), Option.map_some, Embedding.entry,
          if_neg (here ▸ mirrors.started.ne')]
        rfl
      · rw [if_neg here, if_neg (mt fresh.mp here)]
    · intro other free
      rw [large_live, if_neg, mirrors.apart other free]
      rw [mirrors.created, ← place_eq]
      exact (free small.created).symm
    · intro other other_within
      have before := mirrors.active other other_within
      simp only [active?, List.lookup_cons, lookup_filter_ne] at before ⊢
      by_cases here : other = request
      · simp [here, mirrors.created, place_eq]
      · simp [here, beq_false_of_ne here, before]
    · rw [mirrors.ready, mirrors.created, ← place_eq]
      simp

theorem assign (within : request.Within goal)
    (assigned : large.assign (embedding.place id) job request = .ok (after, server)) :
    ∃ middle counterpart, small.assign id job request = .ok (middle, counterpart) ∧
      server = embedding.place counterpart ∧ middle.Mirrors embedding goal after := by
  rw [Agenda.assign, mirrors.active request within] at assigned
  rw [Agenda.assign]
  cases active : small.active? request with
  | some holder =>
      rw [active] at assigned
      dsimp only [Option.map] at assigned ⊢
      simp only [embedding.place_injective.eq_iff, mirrors.waitsFor] at assigned
      split at assigned
      · cases assigned
      · rename_i allowed
        cases assigned
        exact ⟨small, holder, if_neg allowed, rfl, mirrors⟩
  | none =>
      rw [active] at assigned
      rcases mirrors.create assigned with ⟨middle, created, same, still⟩
      exact ⟨middle, _, created, same, still⟩

theorem assignAll (within : ∀ request ∈ requests, request.Within goal)
    (assigned : large.assignAll (embedding.place id) job requests = (after, .ok servers)) :
    ∃ middle counterparts, small.assignAll id job requests = (middle, .ok counterparts) ∧
      servers = counterparts.map embedding.place ∧ middle.Mirrors embedding goal after := by
  induction requests generalizing small large servers with
  | nil =>
      cases assigned
      exact ⟨small, [], rfl, rfl, mirrors⟩
  | cons request rest ih =>
      rw [Agenda.assignAll] at assigned
      split at assigned
      · cases assigned
      · rename_i next server first_eq
        rcases mirrors.assign (within request List.mem_cons_self) first_eq with
          ⟨small_next, counterpart, small_first, rfl, next_mirrors⟩
        cases rest_eq : next.assignAll (embedding.place id) job rest with
        | mk last outcome =>
            rw [rest_eq] at assigned
            cases outcome with
            | error failure => cases assigned
            | ok others =>
                cases assigned
                rcases ih next_mirrors (fun other other_mem =>
                  within other (List.mem_cons_of_mem request other_mem)) rest_eq with
                  ⟨middle, counterparts, small_rest, rfl, still⟩
                refine ⟨middle, counterpart :: counterparts, ?_, rfl, still⟩
                rw [Agenda.assignAll, small_first]
                dsimp only
                rw [small_rest]
                rfl

/-! ## Changing entries -/

theorem setEntry (found : small.live? id = some entry) (replaced : Option Entry) :
    (small.setEntry id replaced).Mirrors embedding goal
      (large.setEntry (embedding.place id) (replaced.map (embedding.entry id))) := by
  have small_live := live?_setEntry found replaced
  have large_live := live?_setEntry (mirrors.live found) (replaced.map (embedding.entry id))
  refine ⟨mirrors.limit, ?_, ?_, ?_, ?_, ?_, mirrors.active, mirrors.ready, mirrors.outstanding,
    mirrors.roots, mirrors.running, mirrors.unfinished⟩
  · exact mirrors.started.trans_eq Array.size_setIfInBounds.symm
  · exact mirrors.base_le.trans_eq Array.size_setIfInBounds.symm
  · have created_eq := mirrors.created
    simpa only [Agenda.created, Agenda.setEntry, Array.size_setIfInBounds] using created_eq
  · intro other
    rw [small_live, large_live, mirrors.entries]
    by_cases here : id = other
    · rw [if_pos here, if_pos (congrArg embedding.place here), here]
    · rw [if_neg here, if_neg (embedding.place_injective.ne here)]
  · intro other free
    rw [large_live, if_neg (free id), mirrors.apart other free]

theorem enqueue (id : JobId) :
    (small.enqueue id).Mirrors embedding goal (large.enqueue (embedding.place id)) := by
  have ready : large.ready ++ [embedding.place id] =
      (small.ready ++ [id]).map embedding.place := by
    rw [mirrors.ready, List.map_append]
    rfl
  exact { mirrors with ready }

theorem addWaiter (waiter server : JobId) :
    (addWaiter waiter small server).Mirrors embedding goal
      (Agenda.addWaiter (embedding.place waiter) large (embedding.place server)) := by
  rw [Agenda.addWaiter, Agenda.addWaiter]
  cases found : small.live? server with
  | none =>
      rw [mirrors.missing found]
      exact mirrors
  | some entry =>
      rw [mirrors.live found]
      have told := mirrors.setEntry found
        (some { entry with waiters := entry.waiters ++ [waiter] })
      simpa only [Option.map_some, Embedding.entry, List.map_append, List.map_cons, List.map_nil,
        List.append_assoc] using told

theorem foldl_addWaiter (waiter : JobId) (servers : List JobId) :
    (servers.foldl (Agenda.addWaiter waiter) small).Mirrors embedding goal
      ((servers.map embedding.place).foldl (Agenda.addWaiter (embedding.place waiter)) large) := by
  induction servers generalizing small large with
  | nil => exact mirrors
  | cons server rest ih => exact ih (mirrors.addWaiter waiter server)

/-- A job that the larger agenda suspends is suspended by the smaller one. -/
theorem suspend (within : ∀ request ∈ requests, request.Within goal)
    (running : (large.suspend (embedding.place id) job requests).failure = none) :
    (small.suspend id job requests).Mirrors embedding goal
      (large.suspend (embedding.place id) job requests) := by
  rw [Agenda.suspend] at running
  rw [Agenda.suspend, Agenda.suspend]
  cases assigned : large.assignAll (embedding.place id) job requests with
  | mk next outcome =>
      rw [assigned] at running
      cases outcome with
      | error failure => exact (fail_ne_none _ _ running).elim
      | ok servers =>
          rcases mirrors.assignAll within assigned with
            ⟨middle, counterparts, small_assigned, rfl, next_mirrors⟩
          have told := next_mirrors.foldl_addWaiter id counterparts
          rw [small_assigned]
          dsimp only at running ⊢
          cases found : (counterparts.foldl (Agenda.addWaiter id) middle).live? id with
          | none =>
              rw [told.missing found] at running
              exact (fail_ne_none _ _ running).elim
          | some entry =>
              have parked := told.setEntry found (some { entry with
                job := some job, pending := counterparts.length, waitingOn := counterparts })
              rw [told.live found]
              simp only [Option.map_some, Embedding.entry, List.length_map, List.isEmpty_map]
                at parked ⊢
              split
              · exact parked.enqueue id
              · exact parked

theorem notify (done waiter : JobId) :
    (notify done small waiter).Mirrors embedding goal
      (Agenda.notify (embedding.place done) large (embedding.place waiter)) := by
  cases found : small.live? waiter with
  | none =>
      rw [Agenda.notify, Agenda.notify, found, mirrors.missing found]
      exact mirrors
  | some entry =>
      have told := mirrors.setEntry found (some (entry.notified done))
      have same : (embedding.entry waiter entry).notified (embedding.place done) =
          embedding.entry waiter (entry.notified done) := by
        rw [Entry.notified, Embedding.entry, Embedding.entry, Entry.notified,
          List.map_erase embedding.place_injective]
      rw [notify_eq found, notify_eq (mirrors.live found), same]
      have pending : (embedding.entry waiter (entry.notified done)).pending =
          (entry.notified done).pending := rfl
      rw [pending]
      split
      · exact told.enqueue waiter
      · exact told

theorem foldl_notify (done : JobId) (owed : List JobId) :
    (owed.foldl (Agenda.notify done) small).Mirrors embedding goal
      ((owed.map embedding.place).foldl (Agenda.notify (embedding.place done)) large) := by
  induction owed generalizing small large with
  | nil => exact mirrors
  | cons waiter rest ih => exact ih (mirrors.notify done waiter)

theorem removed (found : small.live? id = some entry) :
    (small.removed id entry.request).Mirrors embedding goal
      (large.removed (embedding.place id) entry.request) := by
  refine { mirrors.setEntry found none with active := ?_ }
  intro request within
  have before := mirrors.active request within
  simp only [active?, Agenda.removed, lookup_filter_ne] at before ⊢
  split
  · rfl
  · exact before

/-- A job other than the root job is done in both agendas at once. -/
theorem complete (other : id ≠ 0)
    (running : (large.complete (embedding.place id)).failure = none) :
    (small.complete id).Mirrors embedding goal (large.complete (embedding.place id)) := by
  cases found : small.live? id with
  | none =>
      rw [Agenda.complete, mirrors.missing found] at running
      exact (fail_ne_none _ _ running).elim
  | some entry =>
      have told := (mirrors.removed found).foldl_notify id entry.waiters
      rw [complete_eq found, complete_eq (mirrors.live found)]
      simp only [Embedding.entry, if_neg other, List.nil_append]
      refine { told with unfinished := ⟨?_, ?_⟩ }
      · rw [told.unfinished.1, told.roots.1]
        simpa using other.symm
      · rw [told.unfinished.2, told.roots.2]
        simpa using fun zero => other (embedding.place_eq_zero zero.symm)

theorem withOutstanding (outstanding : Nat) :
    ({ small with outstanding } : Agenda).Mirrors embedding goal { large with outstanding } :=
  { mirrors with outstanding := rfl }

/-- A step has the same outcome for both agendas, unless it completes the root job. -/
theorem settle {outcome : Except Failure Step}
    (other : outcome = .ok .done → id ≠ 0)
    (within : ∀ {next requests}, outcome = .ok (.suspend next requests) →
      ∀ request ∈ requests, request.Within goal)
    (running : (large.settle (embedding.place id) outcome).failure = none) :
    (small.settle id outcome).Mirrors embedding goal
      (large.settle (embedding.place id) outcome) := by
  have lowered := mirrors.withOutstanding (small.outstanding - 1)
  have same : ({ large with outstanding := large.outstanding - 1 } : Agenda) =
      { large with outstanding := small.outstanding - 1 } := by
    rw [mirrors.outstanding]
  simp only [Agenda.settle, same] at running ⊢
  rcases outcome with failure | (_ | ⟨next, requests⟩)
  · exact (fail_ne_none _ _ running).elim
  · exact lowered.complete (other rfl) running
  · exact lowered.suspend (within rfl) running

/-! ## Handing out -/

theorem take {ready : List JobId} {taken : Agenda} {handed : JobId × Job}
    (take_eq : large.take (ready.map embedding.place) = (taken, some handed)) :
    ∃ small_taken id, small.take ready = (small_taken, some (id, handed.2)) ∧
      handed.1 = embedding.place id ∧ small_taken.Mirrors embedding goal taken := by
  induction ready with
  | nil =>
      rw [List.map_nil, Agenda.take] at take_eq
      split at take_eq <;> cases take_eq
  | cons first rest ih =>
      rw [List.map_cons, Agenda.take, mirrors.entries] at take_eq
      rw [Agenda.take]
      cases found : small.live? first with
      | none =>
          rw [found] at take_eq
          exact ih take_eq
      | some entry =>
          rcases entry with ⟨_ | job, request, pending, waiters, waitingOn⟩
          · rw [found] at take_eq
            exact ih take_eq
          · rw [found] at take_eq
            cases take_eq
            have taken := mirrors.setEntry found (some ⟨none, request, pending, waiters, waitingOn⟩)
            refine ⟨_, first, rfl, rfl, { taken with ready := rfl, outstanding := ?_ }⟩
            exact congrArg (· + 1) mirrors.outstanding

/-- Both agendas hand out the same job. -/
theorem next {cancelled : Bool} {taken : Agenda} {handed : JobId × Job}
    (next_eq : large.next cancelled = (taken, some handed)) :
    ∃ small_taken id, small.next cancelled = (small_taken, some (id, handed.2)) ∧
      handed.1 = embedding.place id ∧ small_taken.Mirrors embedding goal taken := by
  have open_ {agenda : Agenda} (failure : agenda.failure = none) (finished : agenda.finished = false) :
      ¬(agenda.finished = true ∨ agenda.failure.isSome = true) := by
    simp [failure, finished]
  rw [Agenda.next, if_neg (open_ mirrors.running.2 mirrors.unfinished.2)] at next_eq
  rw [Agenda.next, if_neg (open_ mirrors.running.1 mirrors.unfinished.1)]
  split at next_eq
  · cases next_eq
  · rename_i uncancelled
    rw [if_neg uncancelled]
    rw [mirrors.ready] at next_eq
    exact mirrors.take next_eq

end Mirrors

end Agenda

end Cascades
