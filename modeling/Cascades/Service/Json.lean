import Cascades.Operator.Json
import Cascades.Service.Plans

/-!
# The bodies of requests and responses

Requests and responses of the service are JSON. All requests carry a join graph; fields that a
request may leave out have standard values. A response is a status with a body.
-/

namespace Cascades

namespace GraphTable

def ofJson? (json : Json) : Option GraphTable := do
  let id ← json.required "id" Json.string?
  let schema ← json.required "schema" Json.string?
  let name ← json.required "name" Json.string?
  let columns ← json.presentOr "columns" (Json.list? Json.string?) []
  return ⟨id, schema, name, columns⟩

end GraphTable

namespace GraphEdge

def ofJson? (json : Json) : Option GraphEdge := do
  let leftTable ← json.required "leftTableId" Json.string?
  let rightTable ← json.required "rightTableId" Json.string?
  let joinType ← json.presentOr "joinType" Json.string? "INNER"
  let leftColumn ← json.required "leftColumn" Json.string?
  let rightColumn ← json.required "rightColumn" Json.string?
  return ⟨leftTable, rightTable, joinType, leftColumn, rightColumn⟩

end GraphEdge

namespace JoinGraph

def ofJson? (json : Json) : Option JoinGraph := do
  let tables ← json.required "tables" (Json.list? GraphTable.ofJson?)
  let edges ← json.presentOr "joins" (Json.list? GraphEdge.ofJson?) []
  let source ← json.optional "sourceType" Json.string?
  return ⟨tables, edges, source⟩

end JoinGraph

namespace PlanKind

/-- The kind of plans that a request asks for: physical ones, unless it says otherwise. -/
def ofJson? (json : Json) : Option PlanKind :=
  (json.presentOr "logical" Json.bool? false).map fun logical =>
    if logical then .logical else .physical

end PlanKind

/-- A request for the plans of given ranks. -/
structure UnrankRequest where
  graph : JoinGraph
  ranks : List Nat
  kind : PlanKind

/-- A request for a random sample of plans, from a seed if a repeatable one is wanted. -/
structure SampleRequest where
  graph : JoinGraph
  size : Nat
  seed : Option Nat
  kind : PlanKind

def UnrankRequest.ofJson? (json : Json) : Option UnrankRequest := do
  let graph ← JoinGraph.ofJson? json
  let ranks ← json.required "ranks" (Json.list? Json.word?)
  let kind ← PlanKind.ofJson? json
  return ⟨graph, ranks, kind⟩

def SampleRequest.ofJson? (json : Json) : Option SampleRequest := do
  let graph ← JoinGraph.ofJson? json
  let size ← json.required "size" Json.word?
  let seed ← json.optional "seed" Json.word?
  let kind ← PlanKind.ofJson? json
  return ⟨graph, size, seed, kind⟩

namespace Plan

mutual

def toJson : Plan → Json
  | .node group expression operator children =>
      .object [("group", .ofNat group), ("expr", .ofNat expression), ("op", operator.toJson),
        ("children", .array (toJsons children))]

def toJsons : List Plan → List Json
  | [] => []
  | plan :: rest => plan.toJson :: toJsons rest

end

end Plan

def RunCounts.toJson (counts : RunCounts) : Json :=
  .object [("jobsCreated", .ofNat counts.jobsCreated),
    ("jobsExecuted", .ofNat counts.jobsExecuted), ("rulesApplied", .ofNat counts.rulesApplied),
    ("exprsAdded", .ofNat counts.expressionsAdded)]

def CountAnswer.toJson (answer : CountAnswer) : Json :=
  .object [("physicalPlans", .ofNat answer.physicalPlans),
    ("logicalPlans", .ofNat answer.logicalPlans), ("saturated", .bool answer.saturated),
    ("groups", .ofNat answer.groups), ("exprs", .ofNat answer.expressions),
    ("stats", answer.counts.toJson)]

/-- The plans of an answer, each with the rank that was asked for. -/
def PlansAnswer.rankedJson (answer : PlansAnswer) (ranks : List Nat) : Json :=
  .object [("count", .ofNat answer.count),
    ("plans", .array (List.zipWith
      (fun (rank : Nat) (plan : Plan) =>
        Json.object [("rank", .ofNat rank), ("plan", plan.toJson)])
      ranks answer.plans))]

def PlansAnswer.toJson (answer : PlansAnswer) : Json :=
  .object [("count", .ofNat answer.count), ("plans", .ofList Plan.toJson answer.plans)]

/-- The names of the kinds of rules. -/
def RuleKind.names : List (String × RuleKind) :=
  [("Transformation", .transformation), ("Implementation", .implementation)]

def RuleSummary.toJson (summary : RuleSummary) : Json :=
  .object [("id", .ofNat summary.id.toNat), ("name", .string summary.name),
    ("rule_type", .ofOption (Json.ofNamed RuleKind.names) summary.kind),
    ("source", .ofOption .string summary.source), ("retired", .bool summary.retired)]

/-- A status with a body. -/
structure Response where
  status : Nat
  body : Json

namespace Response

def toJson (response : Response) : Json :=
  .object [("status", .ofNat response.status), ("body", response.body)]

def ok (body : Json) : Response :=
  ⟨200, body⟩

/-- The response to a request with an outcome. -/
def ofOutcome {α : Type} (encode : α → Json) : Except ServiceError α → Response
  | .ok answer => ok (encode answer)
  | .error error => ⟨error.status, .object [("error", .string error.message)]⟩

end Response

namespace Service

/-- The response to the question whether the service is up. -/
def health : Response :=
  .ok (.object [("status", .string "ok")])

/-- All numbers of the rulebook, and the source that searches use unless a request names one. -/
def rulesResponse (service : Service) : Response :=
  .ok (.object [("rules", .ofList RuleSummary.toJson service.rules.describe),
    ("sourceType", .ofOption .string service.config.search.source)])

def countResponse (service : Service) (graph : JoinGraph) : Response :=
  .ofOutcome CountAnswer.toJson (service.count graph)

def unrankResponse (service : Service) (request : UnrankRequest) : Response :=
  .ofOutcome (·.rankedJson request.ranks)
    (service.unrank request.graph request.kind request.ranks)

/-- The response to a request for a sample, whose words come from its seed or else from a source. -/
def sampleResponse (service : Service) (request : SampleRequest) (source : Nat → UInt64) :
    Response :=
  let words :=
    match request.seed with
    | some seed => ChaCha.stream (UInt64.ofNat seed)
    | none => source
  .ofOutcome PlansAnswer.toJson (service.sample request.graph request.kind request.size words)

end Service

end Cascades
