import Cascades.Proofs.Meaning.Conditions
import Cascades.Proofs.Rules.Transformations

/-!
# What expressions denote

Filters, inner joins and cross joins compute what their names say, and all other operators any function
of the bags of their inputs; that of a scan depends on the database. A memo denotes a bag for each of its
groups if all logical expressions of a group compute this bag from those of their children. The rows of a
group have only columns of the tables that are scanned below it.
-/

namespace Cascades

/-- An evaluation of scalar expressions, and what the operators compute that have no fixed meaning. -/
structure Semantics (Value : Type) extends ScalarSemantics Value where
  others : Operator → List (Bag Value) → Bag Value

variable {Value : Type}

namespace Semantics

variable (semantics : Semantics Value)

/-- The rows of a bag of which a predicate is true. -/
def filter (predicate : Scalar) (input : Bag Value) : Bag Value :=
  Multiset.filter (fun row => semantics.holds predicate row) input

/-- The merged rows of two bags of which all conjuncts of a condition are true. -/
def join (condition : Scalar) (first second : Bag Value) : Bag Value :=
  Multiset.filter (fun row => semantics.keeps condition row) (first.product second)

/-- The rows that an operator makes of those of its inputs. A filter reads no input but the first. -/
def apply : Operator → List (Bag Value) → Bag Value
  | .logical (.filter predicate), input :: _ => semantics.filter predicate input
  | .logical (.join .inner condition), [first, second] => semantics.join condition first second
  | .logical (.join .cross condition), [first, second] => semantics.join condition first second
  | operator, inputs => semantics.others operator inputs

variable (bags : GroupId → Bag Value)

/-- The rows of an expression over groups with the given rows. -/
def ofExpression (expression : Expression) : Bag Value :=
  semantics.apply expression.operator (expression.children.map bags)

mutual

/-- The rows of an input of a new expression, which may itself be new. -/
def ofSubplan : Subplan → Bag Value
  | .group id => bags id
  | .fresh operator children => semantics.apply operator (ofSubplans children)

/-- The rows of each of some inputs. -/
def ofSubplans : List Subplan → List (Bag Value)
  | [] => []
  | subplan :: rest => ofSubplan subplan :: ofSubplans rest

end

/-- The rows of a result of a rule, with the new expressions that are nested in it. -/
def ofResult : RuleResult → Bag Value
  | .substitution operator children => semantics.apply operator (children.map bags)
  | .nested operator children => semantics.apply operator (semantics.ofSubplans bags children)

variable {semantics} {bags}

theorem apply_join {type : JoinType} (symmetric : type.isSymmetric = true) {condition : Scalar}
    {first second : Bag Value} :
    semantics.apply (.logical (.join type condition)) [first, second] =
      semantics.join condition first second := by
  cases type with
  | inner | cross => rfl
  | left | right | full | semi | anti => cases symmetric

theorem ofExpression_join {expression : Expression} {type : JoinType} {condition : Scalar}
    {left right : GroupId} (join_eq : expression.join? = some (type, condition, left, right))
    (symmetric : type.isSymmetric = true) : semantics.ofExpression bags expression =
      semantics.join condition (bags left) (bags right) := by
  rcases Expression.join?_eq_some.mp join_eq with ⟨operator_eq, children_eq⟩
  rw [ofExpression, operator_eq, children_eq]
  exact apply_join symmetric

end Semantics

namespace Memo

variable (memo : Memo)

/-- Groups are classes of logical expressions that denote the same bag. -/
structure Denotes (semantics : Semantics Value) (bags : GroupId → Bag Value) : Prop where
  denotes : ∀ {group expression}, expression ∈ memo.logicalIn group →
    semantics.ofExpression bags expression = bags group
  within : ∀ group, (bags group).Within (memo.tablesBelow group)

/-- Every column of a logical expression is qualified by the name of its table. -/
def Qualified : Prop :=
  ∀ {group expression}, expression ∈ memo.logicalIn group →
    ∀ scalar ∈ expression.operator.scalars, scalar.Qualified

/-- No table name is scanned below two different inputs of a join. -/
def Apart : Prop :=
  ∀ {group expression}, expression ∈ memo.logicalIn group →
    expression.operator.kind = .logical .join → expression.children.Pairwise fun left right =>
      (memo.tablesBelow left).Disjoint (memo.tablesBelow right)

/--
No inner join of the left input of an inner join mentions a table that is scanned below the right input,
those that have outer columns aside.
-/
def Scoped (expression : Expression) : Prop :=
  ∀ {outer left right}, expression.join? = some (.inner, outer, left, right) →
    ∀ {input inner first second}, input ∈ memo.logicalIn left →
      input.localInnerJoin? = some (inner, first, second) →
        inner.tables.Disjoint (memo.tablesBelow right)

variable {memo} {group : GroupId} {expression : Expression} {type : JoinType} {condition : Scalar}
  {left right : GroupId}

theorem Qualified.of_join (qualified : memo.Qualified) (expression_mem : expression ∈ memo.logicalIn group)
    (join_eq : expression.join? = some (type, condition, left, right)) : condition.Qualified := by
  refine qualified expression_mem condition ?_
  rw [(Expression.join?_eq_some.mp join_eq).1]
  exact List.mem_singleton_self condition

theorem Apart.of_join (apart : memo.Apart) (expression_mem : expression ∈ memo.logicalIn group)
    (join_eq : expression.join? = some (type, condition, left, right)) :
    (memo.tablesBelow left).Disjoint (memo.tablesBelow right) := by
  rcases Expression.join?_eq_some.mp join_eq with ⟨operator_eq, children_eq⟩
  have inputs := apart expression_mem (by rw [operator_eq]; rfl)
  rw [children_eq] at inputs
  exact List.rel_of_pairwise_cons inputs (List.mem_singleton_self right)

/-- The tables below an input are below the group of the expression, unless this is a scan. -/
theorem tablesBelow_subset (expression_mem : expression ∈ memo.logicalIn group) {input : GroupId}
    (input_mem : input ∈ expression.tableInputs) : memo.tablesBelow input ⊆ memo.tablesBelow group := by
  intro table table_mem
  rcases mem_tablesBelow.mp table_mem with ⟨below, reaches, scanned⟩
  refine mem_tablesBelow.mpr ⟨below, .head ?_ reaches, scanned⟩
  rw [tableSuccessors_eq]
  exact List.mem_flatMap.mpr ⟨expression, expression_mem, input_mem⟩

theorem tablesBelow_join (expression_mem : expression ∈ memo.logicalIn group)
    (join_eq : expression.join? = some (type, condition, left, right)) :
    memo.tablesBelow left ⊆ memo.tablesBelow group ∧ memo.tablesBelow right ⊆ memo.tablesBelow group := by
  rcases Expression.join?_eq_some.mp join_eq with ⟨operator_eq, children_eq⟩
  have inputs_eq : expression.tableInputs = [left, right] := by
    rw [Expression.tableInputs, operator_eq, children_eq]
  exact ⟨tablesBelow_subset expression_mem (by simp [inputs_eq]),
    tablesBelow_subset expression_mem (by simp [inputs_eq])⟩

end Memo

end Cascades
