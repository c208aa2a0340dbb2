import Cascades.JoinGraph.Memo
import Cascades.PlanSpace.Basic
import Cascades.Random.ChaCha
import Cascades.Service.Config

/-!
# The plan service

The service searches the plans of a join graph and answers with their number, with the plans of
given ranks, or with a random sample. A request that asks for too many plans, or whose graph is
turned down, is the caller's mistake, and so is a rank out of range; a search that fails is the
service's.
-/

namespace Cascades

/-- What the service needs to answer: its configuration and its rules. -/
structure Service where
  config : ServiceConfig
  rules : Rulebook

/-- Why a request is not answered. -/
inductive ServiceError where
  | tooManyPlans (requested limit : Nat)
  | badGraph (cause : GraphError)
  | failed (failure : Failure)
  | dangling (cause : Dangling)

/-- The message of a reference to something that is not there. -/
def Dangling.message : Dangling → String
  | .group id => s!"no group {id}"
  | .expression id => s!"no expression {id}"

namespace ServiceError

/-- The message of the answer to a request that fails. -/
def message : ServiceError → String
  | .tooManyPlans requested limit => s!"{requested} plans requested, at most {limit} allowed"
  | .badGraph cause => cause.message
  | .failed failure => failure.message
  | .dangling cause => "search task failed: " ++ cause.message

/-- Whether the mistake is the caller's. -/
def isCallers : ServiceError → Bool
  | .tooManyPlans .. => true
  | .badGraph _ => true
  | .failed failure => !failure.fatal
  | .dangling _ => false

/-- The status of the response. -/
def status (error : ServiceError) : Nat :=
  if error.isCallers then 400 else 500

end ServiceError

/-- A memo after a successful search. -/
structure SearchedGraph where
  memo : Memo
  root : GroupId
  counts : RunCounts

/-- The answer to a request for the number of plans. -/
structure CountAnswer where
  physicalPlans : Nat
  logicalPlans : Nat
  groups : Nat
  expressions : Nat
  counts : RunCounts

namespace CountAnswer

/-- Whether there are more physical plans than can be counted. -/
def saturated (answer : CountAnswer) : Bool :=
  answer.physicalPlans == Saturating.limit

end CountAnswer

/-- Plans with the number of all plans of their space. -/
structure PlansAnswer where
  count : Nat
  plans : List Plan

namespace ServiceError

/-- The outcome of a step of the service. -/
def ofFailure {α : Type} : Except Failure α → Except ServiceError α
  | .ok value => .ok value
  | .error failure => .error (.failed failure)

/-- A dangling reference fails the request. -/
def ofChecked {α : Type} : Checked α → Except ServiceError α
  | .ok value => .ok value
  | .error cause => .error (.dangling cause)

end ServiceError

namespace SearchedGraph

/-- The plan space of a kind. -/
def space (graph : SearchedGraph) (kind : PlanKind) : Except ServiceError PlanSpace := do
  let space ← ServiceError.ofChecked (PlanSpace.build graph.memo graph.root kind)
  ServiceError.ofFailure space

/-- The plans that trees stand for. -/
def plansOf (graph : SearchedGraph) (trees : List (Tree ExprId)) :
    Except ServiceError (List Plan) :=
  ServiceError.ofChecked (graph.memo.plansOf trees)

end SearchedGraph

namespace Service

/-- Turns down a request for more plans than are allowed. -/
def checkSize (service : Service) (requested : Nat) : Except ServiceError Unit :=
  if service.config.maxSample < requested then
    .error (.tooManyPlans requested service.config.maxSample)
  else .ok ()

/-- The settings of the search of a join graph, which may name a source of its own. -/
def searchConfig (service : Service) (graph : JoinGraph) : SearchConfig :=
  { service.config.search with source := graph.source.or service.config.search.source }

/-- The memo of a join graph after the search. -/
def search (service : Service) (graph : JoinGraph) : Except ServiceError SearchedGraph :=
  match graph.plan with
  | .error cause => .error (.badGraph cause)
  | .ok planned => do
      let report ← ServiceError.ofChecked (planned.memo.search service.rules planned.catalog
        (service.searchConfig graph) planned.root false)
      ServiceError.ofFailure report.outcome
      return ⟨report.memo, planned.root, report.counts⟩

/-- The numbers of plans of a join graph. -/
def count (service : Service) (graph : JoinGraph) : Except ServiceError CountAnswer := do
  let searched ← service.search graph
  let physical ← searched.space .physical
  let logical ← searched.space .logical
  let physicalPlans ← ServiceError.ofFailure physical.treeCount.2
  let logicalPlans ← ServiceError.ofFailure logical.treeCount.2
  return ⟨physicalPlans, logicalPlans, searched.memo.groups.size,
    searched.memo.expressions.size, searched.counts⟩

/-- The plans of several ranks. -/
def unrank (service : Service) (graph : JoinGraph) (kind : PlanKind) (ranks : List Nat) :
    Except ServiceError PlansAnswer := do
  service.checkSize ranks.length
  let searched ← service.search graph
  let space ← searched.space kind
  let (space, count) := space.treeCount
  let count ← ServiceError.ofFailure count
  let trees ← ServiceError.ofFailure (space.unrankEach ranks).2
  return ⟨count, ← searched.plansOf trees⟩

/-- Plans drawn at random, by a stream of words. -/
def sample (service : Service) (graph : JoinGraph) (kind : PlanKind) (size : Nat)
    (words : Nat → UInt64) : Except ServiceError PlansAnswer := do
  service.checkSize size
  let searched ← service.search graph
  let space ← searched.space kind
  let (space, count) := space.treeCount
  let count ← ServiceError.ofFailure count
  let trees ← ServiceError.ofFailure (PlanSpace.sample space words size).2
  return ⟨count, ← searched.plansOf trees⟩

end Service

end Cascades
