import Cascades.Search.Agenda
import Cascades.Search.Step

/-!
# Runs

A run seeds an agenda with one request and steps the jobs that the agenda hands out until it hands
out no more. The memo keeps what a run has stored even if the run fails.

A job takes at most a few steps more than it causes jobs to be created, so four steps per created
job are never exceeded and the limit on jobs also bounds the steps.
-/

namespace Cascades

/-- How to search: the limit on jobs, the source that selects rules, and whether to implement. -/
structure SearchConfig where
  maxJobs : Nat
  source : Option String
  implement : Bool
deriving DecidableEq

namespace SearchConfig

/-- The configuration of a search that is not told otherwise. -/
def standard : SearchConfig :=
  ⟨1000000, none, true⟩

/-- What every reachable group is driven to. -/
def goal (config : SearchConfig) : Goal :=
  if config.implement then .implement else .explore

end SearchConfig

/-- The counts of a run. -/
structure RunCounts where
  jobsCreated : Nat
  jobsExecuted : Nat
  rulesApplied : Nat
  expressionsAdded : Nat
deriving DecidableEq

/-- One step of a run: the job that was stepped, its state before the step, and the outcome. -/
structure StepRecord where
  id : JobId
  job : Job
  outcome : Except Failure Step

/-- A run between two steps. -/
structure RunState where
  progress : Progress
  agenda : Agenda

/-- What a run leaves behind. -/
structure RunReport where
  memo : Memo
  steps : List StepRecord
  counts : RunCounts
  outcome : Except Failure Unit

namespace RunState

/-- Steps the next job, if the agenda hands one out. -/
def advance (context : Context) (state : RunState) : Checked (RunState × Option StepRecord) :=
  match state.agenda.next state.progress.cancelled with
  | (agenda, none) => return ({ state with agenda }, none)
  | (agenda, some (id, job)) => do
      let (progress, outcome) ← job.step context state.progress
      return (⟨progress, agenda.settle id outcome⟩, some ⟨id, job, outcome⟩)

/-- Steps jobs until none is handed out, at most the given number of times. -/
def drive (context : Context) : Nat → RunState → Checked (RunState × List StepRecord)
  | 0, state => return (state, [])
  | steps + 1, state => do
      match ← state.advance context with
      | (state, none) => return (state, [])
      | (state, some record) =>
          let (state, records) ← drive context steps state
          return (state, record :: records)

/-- What the run leaves behind in this state. -/
def report (state : RunState) (steps : List StepRecord) : RunReport where
  memo := state.progress.memo
  steps := steps
  counts := ⟨state.agenda.created, state.progress.executed, state.progress.rulesApplied,
    state.progress.expressionsAdded⟩
  outcome := state.agenda.finish

end RunState

namespace Memo

/-- The number of steps that a run with a limit on jobs never exceeds. -/
def stepLimit (maxJobs : Nat) : Nat :=
  4 * maxJobs + 1

/-- The state of a run before its root job is created. -/
def initialState (memo : Memo) (maxJobs : Nat) (cancelled : Bool) : RunState :=
  ⟨⟨memo, 0, 0, 0, cancelled⟩, .empty maxJobs⟩

/-- What a run reads, for a configuration. -/
def context (rules : Rulebook) (catalog : Catalog) (config : SearchConfig) : Context :=
  ⟨rules, catalog, rules.mask config.source⟩

/-- Serves one request, and all the work that it leads to. -/
def serve (memo : Memo) (rules : Rulebook) (catalog : Catalog) (config : SearchConfig)
    (request : Request) (cancelled : Bool) : Checked RunReport :=
  let initial := memo.initialState config.maxJobs cancelled
  match initial.agenda.seed request with
  | .error failure => return { initial.report [] with outcome := .error failure }
  | .ok agenda => do
      let (state, steps) ←
        RunState.drive (context rules catalog config) (stepLimit config.maxJobs)
          { initial with agenda }
      return state.report steps

/--
Drives every group that is reachable from a root to the goal of the configuration. For a root that does
not exist no run is started, and the report has zero counts: those of an earlier run, which a caller may
still hold, are not known here.
-/
def search (memo : Memo) (rules : Rulebook) (catalog : Catalog) (config : SearchConfig)
    (root : GroupId) (cancelled : Bool) : Checked RunReport :=
  if memo.holdsGroup root then
    memo.serve rules catalog config (.group root config.goal) cancelled
  else
    return ⟨memo, [], ⟨0, 0, 0, 0⟩, .error (.corrupted (.unknownRoot root))⟩

end Memo

end Cascades
