import Cascades.Rule.Basic

/-!
# Template rules

A template rule is given by data. Its results are written down in advance and refer to the
expression that the rule is applied to: its operator may be reused, and its child groups are named
by their positions. A result that cannot be read is only noticed when the rule is applied, and makes
it fail.
-/

namespace Cascades

/-- The operator of a result. -/
inductive OperatorTemplate where
  /-- The operator of the matched expression. -/
  | own
  | given (operator : Operator)
  | unreadable

/-- A group that a result refers to. -/
inductive GroupTemplate where
  | given (id : GroupId)
  /-- A child group of the matched expression. -/
  | input (position : Nat)
  | unreadable

/-- An input of a result. -/
inductive SubplanTemplate where
  | group (target : GroupTemplate)
  | fresh (operator : OperatorTemplate) (children : List SubplanTemplate)

/-- A result. -/
inductive ResultTemplate where
  | substitution (operator : OperatorTemplate) (children : List GroupTemplate)
  | nested (operator : OperatorTemplate) (children : List SubplanTemplate)

/-- A rule given by data. -/
structure RuleTemplate where
  name : String
  kind : RuleKind
  pattern : Pattern
  promise : Promise
  incompatible : List String
  cancels : Bool
  failure : Option RuleFailure
  results : List ResultTemplate

namespace OperatorTemplate

def fill (expression : Expression) : OperatorTemplate → Except RuleFailure Operator
  | .own => .ok expression.operator
  | .given operator => .ok operator
  | .unreadable => .error (.fatal "bad operator")

end OperatorTemplate

namespace GroupTemplate

def fill (expression : Expression) : GroupTemplate → Except RuleFailure GroupId
  | .given id => .ok id
  | .input position =>
      match expression.children[position]? with
      | some id => .ok id
      | none => .error (.fatal "bad child reference")
  | .unreadable => .error (.fatal "bad child reference")

end GroupTemplate

namespace SubplanTemplate

mutual

def fill (expression : Expression) : SubplanTemplate → Except RuleFailure Subplan
  | .group target => do
      let id ← target.fill expression
      return .group id
  | .fresh operator children => do
      let operator ← operator.fill expression
      let children ← fillAll expression children
      return .fresh operator children

def fillAll (expression : Expression) : List SubplanTemplate → Except RuleFailure (List Subplan)
  | [] => return []
  | child :: rest => do
      let child ← child.fill expression
      let rest ← fillAll expression rest
      return child :: rest

end

end SubplanTemplate

namespace ResultTemplate

/-- The result for a matched expression, its operator read before its children. -/
def fill (expression : Expression) : ResultTemplate → Except RuleFailure RuleResult
  | .substitution operator children => do
      let operator ← operator.fill expression
      let children ← children.mapM (GroupTemplate.fill expression)
      return .substitution operator children
  | .nested operator children => do
      let operator ← operator.fill expression
      let children ← SubplanTemplate.fillAll expression children
      return .nested operator children

end ResultTemplate

namespace RuleTemplate

/-- The failure the template asks for, or else its results for a matched expression. -/
def outcome (template : RuleTemplate) (expression : Expression) :
    Except RuleFailure (List RuleResult) :=
  match template.failure with
  | some failure => .error failure
  | none => template.results.mapM (ResultTemplate.fill expression)

/-- The rule that a template describes. -/
def rule (template : RuleTemplate) : Rule where
  name := template.name
  kind := template.kind
  pattern := template.pattern
  incompatible := template.incompatible
  promise := fun _ _ _ => .ok template.promise
  apply := fun expression _ _ => .ok ⟨template.cancels, template.outcome expression⟩

end RuleTemplate

end Cascades
