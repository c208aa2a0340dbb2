import Cascades.Failure
import Cascades.Memo.Text

/-!
# Jobs

A search is cut into jobs. A group job drives a group to a goal, an expression job does so for one
logical expression, and a rule job applies one rule to one expression. A job never blocks: it asks
for further jobs and is resumed when they are done, so its fields also tell how far it has come.
-/

namespace Cascades

/-- The name of a goal. -/
def Goal.text : Goal → String
  | .explore => "Explore"
  | .implement => "Implement"

/-- A piece of work that a job can ask for. -/
inductive Request where
  | group (id : GroupId) (goal : Goal)
  | expression (id : ExprId) (goal : Goal)
  | applyRule (rule : RuleId) (target : ExprId)
deriving DecidableEq

/-- A group to drive to a goal, and how many of its logical expressions have been asked for. -/
structure GroupJob where
  group : GroupId
  goal : Goal
  exploreRequired : Bool
  dispatched : Nat
deriving DecidableEq

/-- An expression to drive to a goal, and whether its children and its rules have been asked for. -/
structure ExpressionJob where
  expression : ExprId
  goal : Goal
  childrenScheduled : Bool
  rulesScheduled : Bool
deriving DecidableEq

/-- A rule to apply, and the expression to apply it to. -/
structure RuleJob where
  rule : RuleId
  expression : ExprId
deriving DecidableEq

/-- A piece of work in progress. -/
inductive Job where
  | group (job : GroupJob)
  | expression (job : ExpressionJob)
  | applyRule (job : RuleJob)
deriving DecidableEq

namespace Request

/-- The job that does the work, before its first step. -/
def job : Request → Job
  | .group id goal => .group ⟨id, goal, false, 0⟩
  | .expression id goal => .expression ⟨id, goal, false, false⟩
  | .applyRule rule target => .applyRule ⟨rule, target⟩

/-- The text of a request, as it is shown in a failure. -/
def text : Request → String
  | .group id goal => "Group(" ++ toString id ++ ", " ++ goal.text ++ ")"
  | .expression id goal => "Expression(" ++ toString id ++ ", " ++ goal.text ++ ")"
  | .applyRule rule target =>
      "ApplyRule(RuleId(" ++ toString rule.toNat ++ "), " ++ toString target ++ ")"

end Request

/-- The text of a job, which does not show how far it has come. -/
def Job.text : Job → String
  | .group job => "group(" ++ toString job.group ++ ", " ++ job.goal.text ++ ")"
  | .expression job => "expr(" ++ toString job.expression ++ ", " ++ job.goal.text ++ ")"
  | .applyRule job => "apply(" ++ job.rule.text ++ ", expr " ++ toString job.expression ++ ")"

/-- What a step of a job comes to. -/
inductive Step where
  | done
  /-- The job has to be resumed after the requested work, or at once if there is none. -/
  | suspend (job : Job) (requests : List Request)

end Cascades
