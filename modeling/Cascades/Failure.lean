import Cascades.Forest.Basic
import Cascades.Memo.Basic

/-!
# Failures

Everything that a search, a rulebook, a forest or a plan space can refuse to do, by cause. A failure
belongs to one of nine kinds and has a message. Failures of a search are fatal, while those that
only turn a caller's question down are not.
-/

namespace Cascades

/-- The number of a job. -/
abbrev JobId := Nat

/-- Ways in which a search graph can turn out to be inconsistent. -/
inductive Corruption where
  | unknownGroup (id : GroupId)
  | unknownRoot (id : GroupId)
  | unknownExpression (id : ExprId)
  | unknownChild (expression : ExprId) (child : GroupId)
  | unknownReference (rule : RuleId) (group : GroupId)
  | ruleNumbersExhausted
  | missingEntry (job : JobId)
  | stalled (suspended : Nat)
  | unfinished
  | emptySlot (slot : Nat) (node : NodeId)
  | rankOverflow (slot : Nat) (node : NodeId)
  | rootUnranked
  | reported (message : String)
deriving DecidableEq

/-- Why something was refused. -/
inductive Failure where
  /-- A job asked for something that already waits for it. -/
  | waitCycle (job request : String)
  /-- A node of a forest lies below itself. -/
  | nodeCycle (node : NodeId) (value : String)
  | rankOutOfRange (rank count : Nat)
  | unknownRule (id : RuleId)
  | unknownRuleName (name : String)
  | retiredRule (id : RuleId) (name : String)
  | duplicateRule (name : String)
  | selfLoop (value : String) (slot : Nat)
  | cancelled
  | budgetExhausted (limit : Nat)
  | corrupted (cause : Corruption)
  | ruleFailed (rule : String) (group : GroupId) (message : String)
deriving DecidableEq

/-- The kinds of failures. -/
inductive FailureKind where
  | structuralCycle | rankOutOfRange | unknownRule | duplicateRule | selfLoop | cancelled
  | resourceExhausted | graphCorruption | ruleFailed
deriving DecidableEq

/-- The message of an inconsistency, which names what is missing or repeated. -/
def Corruption.message : Corruption → String
  | .unknownGroup id => s!"unknown group {id}"
  | .unknownRoot id => s!"unknown root group {id}"
  | .unknownExpression id => s!"unknown expression {id}"
  | .unknownChild expression child => s!"expression {expression} has unknown child {child}"
  | .unknownReference rule group =>
      "rule " ++ rule.text ++ s!" referenced unknown group {group}"
  | .ruleNumbersExhausted => "rule id space exhausted"
  | .missingEntry job => s!"job {job} has no entry"
  | .stalled suspended => s!"scheduler stalled with {suspended} suspended jobs"
  | .unfinished => "workers exited before the root job completed"
  | .emptySlot slot node => s!"empty slot {slot} on a counted path through node {node}"
  | .rankOverflow slot node => s!"rank overflowed slot {slot} of tree-map node {node}"
  | .rootUnranked => "universal root unranked as a value"
  | .reported message => message

namespace Failure

/-- The kind that a failure is reported as. -/
def kind : Failure → FailureKind
  | .waitCycle .. => .structuralCycle
  | .nodeCycle .. => .structuralCycle
  | .rankOutOfRange .. => .rankOutOfRange
  | .unknownRule .. => .unknownRule
  | .unknownRuleName .. => .unknownRule
  | .retiredRule .. => .unknownRule
  | .duplicateRule .. => .duplicateRule
  | .selfLoop .. => .selfLoop
  | .cancelled => .cancelled
  | .budgetExhausted .. => .resourceExhausted
  | .corrupted .. => .graphCorruption
  | .ruleFailed .. => .ruleFailed

/-- The message that a failure is reported with. -/
def message : Failure → String
  | .waitCycle job request =>
      s!"structural cycle detected: {job} requested {request}, which already waits on it"
  | .nodeCycle node value =>
      s!"structural cycle detected: node {node} ({value}) reached while it was being counted"
  | .rankOutOfRange rank count => s!"rank {rank} out of range: map holds {count} trees"
  | .unknownRule id => "unknown rule: " ++ id.text
  | .unknownRuleName name => s!"unknown rule: {name}"
  | .retiredRule id name => "unknown rule: " ++ id.text ++ s!" ({name}) is retired"
  | .duplicateRule name => s!"duplicate rule name: {name}"
  | .selfLoop value slot => s!"self-loop edge on tree-map node {value} (slot {slot})"
  | .cancelled => "optimization run cancelled"
  | .budgetExhausted limit => s!"job budget exhausted after {limit} jobs"
  | .corrupted cause => "search graph corrupted: " ++ cause.message
  | .ruleFailed rule group message => s!"rule '{rule}' failed on group {group}: {message}"

/-- Whether the failure ends a whole run. -/
def fatal (failure : Failure) : Bool :=
  match failure.kind with
  | .structuralCycle | .cancelled | .resourceExhausted | .graphCorruption | .ruleFailed => true
  | .rankOutOfRange | .unknownRule | .duplicateRule | .selfLoop => false

end Failure

end Cascades
