import Cascades.Search.Job
import Cascades.Traversal

/-!
# The agenda of a search

The agenda hands out the jobs that are ready, first come first served, and keeps the others until
the work they asked for is done. A request for work that a live job already does does not create a
second job: whoever asks waits for the first one too. A request that would make a job wait for
itself, directly or through others, is refused.

The number of jobs is limited. The first failure is kept and ends the run.
-/

namespace Cascades

/--
A live job. Its state is absent while the job is handed out. The job waits for `pending` completions
of the jobs in `waitingOn`, and the jobs in `waiters` wait for it.
-/
structure Entry where
  job : Option Job
  request : Request
  pending : Nat
  waiters : List JobId
  waitingOn : List JobId
deriving DecidableEq

/--
The live jobs by their numbers, those ready in order, and the job that serves each request. Numbers
of completed jobs have no entry.
-/
structure Agenda where
  limit : Nat
  entries : Array (Option Entry)
  ready : List JobId
  active : List (Request × JobId)
  outstanding : Nat
  root : Option JobId
  finished : Bool
  failure : Option Failure

namespace Agenda

/-- The agenda before the root is asked for. -/
def empty (limit : Nat) : Agenda :=
  ⟨limit, #[], [], [], 0, none, false, none⟩

/-- The number of jobs created so far. -/
def created (agenda : Agenda) : Nat :=
  agenda.entries.size

/-- The entry of a live job. -/
def live? (agenda : Agenda) (id : JobId) : Option Entry :=
  agenda.entries[id]?.join

/-- The number of live jobs. -/
def liveCount (agenda : Agenda) : Nat :=
  (agenda.entries.toList.filter Option.isSome).length

/-- Replaces the entry of a live job. -/
def setEntry (agenda : Agenda) (id : JobId) (entry : Option Entry) : Agenda :=
  { agenda with entries := agenda.entries.setIfInBounds id entry }

/-- Makes a job ready after all others. -/
def enqueue (agenda : Agenda) (id : JobId) : Agenda :=
  { agenda with ready := agenda.ready ++ [id] }

/-- The job that serves a request. -/
def active? (agenda : Agenda) (request : Request) : Option JobId :=
  agenda.active.lookup request

/-- Creates a ready job for a request, which it serves from now on. -/
def create (agenda : Agenda) (request : Request) : Except Failure (Agenda × JobId) :=
  if agenda.limit ≤ agenda.created then .error (.budgetExhausted agenda.limit)
  else
    let id := agenda.created
    .ok ({ agenda with
      entries := agenda.entries.push (some ⟨some request.job, request, 0, [], []⟩)
      ready := agenda.ready ++ [id]
      active := (request, id) :: agenda.active.filter (fun served => served.1 != request) }, id)

/-- Creates the root job. The run is finished once it completes. -/
def seed (agenda : Agenda) (request : Request) : Except Failure Agenda := do
  let (agenda, id) ← agenda.create request
  return { agenda with root := some id }

/-- The jobs that a job waits for. -/
def waitingOn (agenda : Agenda) (id : JobId) : List JobId :=
  match agenda.live? id with
  | some entry => entry.waitingOn
  | none => []

/-- Whether a job waits for another one, directly or through live jobs. -/
def waitsFor (agenda : Agenda) (waiter target : JobId) : Bool :=
  (Traversal.breadthFirst agenda.created agenda.waitingOn waiter).any fun id =>
    (agenda.waitingOn id).contains target

/-- The job that is to serve a request of a suspended job. -/
def assign (agenda : Agenda) (id : JobId) (job : Job) (request : Request) :
    Except Failure (Agenda × JobId) :=
  match agenda.active? request with
  | some server =>
      if server = id ∨ agenda.waitsFor server id then
        .error (.waitCycle job.text request.text)
      else .ok (agenda, server)
  | none => agenda.create request

/-- The jobs that are to serve requests, up to the first that is refused. -/
def assignAll (agenda : Agenda) (id : JobId) (job : Job) :
    List Request → Agenda × Except Failure (List JobId)
  | [] => (agenda, .ok [])
  | request :: rest =>
      match agenda.assign id job request with
      | .error failure => (agenda, .error failure)
      | .ok (agenda, server) =>
          match assignAll agenda id job rest with
          | (agenda, outcome) => (agenda, outcome.map (server :: ·))

/-- Adds a job to those that wait for another one. -/
def addWaiter (waiter : JobId) (agenda : Agenda) (id : JobId) : Agenda :=
  match agenda.live? id with
  | some entry => agenda.setEntry id (some { entry with waiters := entry.waiters ++ [waiter] })
  | none => agenda

/-- Ends the run with a failure, unless it has failed before. -/
def fail (agenda : Agenda) (failure : Failure) : Agenda :=
  { agenda with failure := agenda.failure.or (some failure), ready := [] }

/-- Keeps a job until its requests are served. -/
def suspend (agenda : Agenda) (id : JobId) (job : Job) (requests : List Request) : Agenda :=
  match agenda.assignAll id job requests with
  | (agenda, .error failure) => agenda.fail failure
  | (agenda, .ok servers) =>
      let agenda := servers.foldl (addWaiter id) agenda
      match agenda.live? id with
      | none => agenda.fail (.corrupted (.missingEntry id))
      | some entry =>
          let parked :=
            { entry with job := some job, pending := servers.length, waitingOn := servers }
          let agenda := agenda.setEntry id (some parked)
          if servers.isEmpty then agenda.enqueue id else agenda

/--
Tells a waiting job that a job it waits for is done. The order of `waitingOn` is of no consequence: it is
only asked which jobs can be reached from a job by following it.
-/
def notify (done : JobId) (agenda : Agenda) (waiter : JobId) : Agenda :=
  match agenda.live? waiter with
  | none => agenda
  | some entry =>
      let notified :=
        { entry with pending := entry.pending - 1, waitingOn := entry.waitingOn.erase done }
      let agenda := agenda.setEntry waiter (some notified)
      if notified.pending = 0 then agenda.enqueue waiter else agenda

/-- Removes a job that is done and tells those that wait for it. -/
def complete (agenda : Agenda) (id : JobId) : Agenda :=
  match agenda.live? id with
  | none => agenda.fail (.corrupted (.missingEntry id))
  | some entry =>
      let removed :=
        { agenda.setEntry id none with
          active := agenda.active.filter (fun served => served.1 != entry.request) }
      let agenda := entry.waiters.foldl (notify id) removed
      { agenda with finished := agenda.finished || agenda.root == some id }

/-- Records the outcome of a step of a job. -/
def settle (agenda : Agenda) (id : JobId) (outcome : Except Failure Step) : Agenda :=
  let agenda := { agenda with outstanding := agenda.outstanding - 1 }
  match outcome with
  | .ok .done => agenda.complete id
  | .ok (.suspend job requests) => agenda.suspend id job requests
  | .error failure => agenda.fail failure

/-- Hands out the first of the listed jobs that is not handed out already. -/
def take (agenda : Agenda) : List JobId → Agenda × Option (JobId × Job)
  | [] =>
      let drained := { agenda with ready := [] }
      if agenda.outstanding = 0 then
        (drained.fail (.corrupted (.stalled agenda.liveCount)), none)
      else (drained, none)
  | id :: rest =>
      match agenda.live? id with
      | some ⟨some job, request, pending, waiters, waitingOn⟩ =>
          let taken := agenda.setEntry id (some ⟨none, request, pending, waiters, waitingOn⟩)
          ({ taken with ready := rest, outstanding := agenda.outstanding + 1 }, some (id, job))
      | _ => agenda.take rest

/--
Hands out the next job. There is none when the run is over, and also while all live jobs wait for
jobs that are handed out.
-/
def next (agenda : Agenda) (cancelled : Bool) : Agenda × Option (JobId × Job) :=
  if agenda.finished ∨ agenda.failure.isSome then (agenda, none)
  else if cancelled then (agenda.fail .cancelled, none)
  else agenda.take agenda.ready

/-- The outcome of a run in which no job is handed out any more. -/
def finish (agenda : Agenda) : Except Failure Unit :=
  match agenda.failure with
  | some failure => .error failure
  | none => if agenda.finished then .ok () else .error (.corrupted .unfinished)

end Agenda

end Cascades
