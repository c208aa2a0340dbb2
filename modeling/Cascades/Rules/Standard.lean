import Cascades.Rulebook
import Cascades.Rules.Implementation
import Cascades.Rules.Pushdown

/-!
# The standard rulebook

The standard rules have the numbers 0 to 14. Number 4 belongs to a retired rule.
-/

namespace Cascades

namespace Rules

/-- The standard rules that come before the retired one. -/
def transformations : List Rule :=
  [joinCommutativity, joinAssociativity, predicatePushdown, projectionPushdown]

/-- The standard rules that come after the retired one. -/
def implementations : List Rule :=
  [hashJoin, mergeJoin, nestedLoopJoin, seqScan, hashAggregate, streamAggregate, sort, filter,
    project, limit]

/-- The standard rule of a name. -/
def named? (name : String) : Option Rule :=
  (transformations ++ implementations).find? fun rule => rule.name == name

end Rules

namespace Rulebook

/-- Registers unrestricted rules one after the other. -/
def registerAll (book : Rulebook) (rules : List Rule) : Except Failure Rulebook :=
  rules.foldlM (fun book rule =>
    let (larger, answer) := book.register rule none
    answer.map fun _ => larger) book

/-- The rulebook of all standard rules, or the failure to number them. -/
def standard? : Except Failure Rulebook := do
  let book ← empty.registerAll Rules.transformations
  let (book, answer) := book.retire "JoinAssociativityLegacy"
  let _ ← answer
  book.registerAll Rules.implementations

/-- The rulebook of all standard rules. -/
def standard : Rulebook :=
  match standard? with
  | .ok book => book
  | .error _ => empty

end Rulebook

end Cascades
