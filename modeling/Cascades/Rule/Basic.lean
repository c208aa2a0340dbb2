import Cascades.Catalog
import Cascades.Pattern

/-!
# Rules

A rule turns an expression into equivalent ones. Transformations produce logical alternatives and
implementations physical ones. A rule is only applied to expressions that match its pattern, and its
promise for an expression tells how early it should be applied, if at all.

The results of a rule are expressions of the group of the expression it was applied to. Their
children are existing groups, or new sub-plans that still have to be stored.
-/

namespace Cascades

/-- Rules give logical alternatives or physical ones. -/
inductive RuleKind where
  | transformation | implementation
deriving DecidableEq

/-- How useful a rule is expected to be for an expression. -/
inductive Promise where
  | none | low | medium | high
deriving DecidableEq

/-- The place of a promise in ascending order. -/
def Promise.rank : Promise → Nat
  | .none => 0
  | .low => 1
  | .medium => 2
  | .high => 3

/-- An input of a new expression: an existing group, or a plan that has yet to be stored. -/
inductive Subplan where
  | group (id : GroupId)
  | fresh (operator : Operator) (children : List Subplan)

/-- An expression that a rule produces. -/
inductive RuleResult where
  /-- An operator over existing groups. -/
  | substitution (operator : Operator) (children : List GroupId)
  /-- An operator over inputs that may be new. -/
  | nested (operator : Operator) (children : List Subplan)

/-- Why a rule gave no results. A recoverable failure counts as having none. -/
inductive RuleFailure where
  | recoverable (message : String)
  | fatal (message : String)
deriving DecidableEq

/-- What applying a rule leads to: its outcome, and whether it also cancels the run. -/
structure Application where
  cancels : Bool
  outcome : Except RuleFailure (List RuleResult)

/-- The outcome of a rule that does not fail. -/
def Application.results (results : List RuleResult) : Application :=
  ⟨false, .ok results⟩

/--
A rule. It is never applied to an expression that a rule named in `incompatible` produced.
-/
structure Rule where
  name : String
  kind : RuleKind
  pattern : Pattern
  incompatible : List String
  promise : Expression → Memo → Catalog → Checked Promise
  apply : Expression → Memo → Catalog → Checked Application

/-- The promise of a rule that has no reason to be applied early or late. -/
def Rule.defaultPromise : Expression → Memo → Catalog → Checked Promise :=
  fun _ _ _ => .ok .medium

end Cascades
