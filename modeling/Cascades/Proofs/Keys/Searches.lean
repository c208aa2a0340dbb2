import Cascades.Proofs.Keys.Transformations
import Cascades.Proofs.Search.Cycles

/-!
# Keys of hash and merge joins

A hash join that is not a cross join, and a merge join, is made from a logical join whose condition
has an equality of two columns. Whether this equality is a key, which links the two inputs, is not
looked at: both columns may be of the same input. It is one if the equalities of the conditions link
the inputs of joins from the start and the expressions of each group have the same tables below them.
-/

namespace Cascades

open Memo

/-- The predicate of a logical filter. -/
def Operator.predicate? : Operator → Option Scalar
  | .logical (.filter predicate) => some predicate
  | _ => none

/-- The condition that has the key of a hash or a merge join. Hash joins may be cross joins without. -/
def PhysicalOperator.keyed? : PhysicalOperator → Option Scalar
  | .hashJoin type _ condition => if type = .cross then none else some condition
  | .mergeJoin _ condition => some condition
  | _ => none

/-- An operator is only run by a join with a key if it is a join with an equality of columns. -/
theorem LogicalOperator.keyed_of_mem {operator : LogicalOperator} {physical : PhysicalOperator}
    {condition : Scalar} (physical_mem : physical ∈ operator.algorithms)
    (keyed : physical.keyed? = some condition) :
    ∃ type, operator = .join type condition ∧ condition.hasEquality = true := by
  have form_eq := form_of_mem physical_mem
  subst form_eq
  cases physical with
  | hashJoin type build own =>
      rw [PhysicalOperator.keyed?] at keyed
      split at keyed
      · cases keyed
      · rename_i not_cross
        cases keyed
        have can_hash : condition.hasEquality = true ∧ (build = .right ∨ build = .left) := by
          simpa [PhysicalOperator.form, algorithms, Rules.canHash, not_cross] using physical_mem
        exact ⟨type, rfl, can_hash.1⟩
  | mergeJoin type own =>
      cases keyed
      refine ⟨type, rfl, ?_⟩
      have can_merge : Rules.canMerge type condition = true := by
        by_contra cannot
        simp [PhysicalOperator.form, algorithms, cannot] at physical_mem
      exact (Bool.and_eq_true_iff.mp can_merge).1
  | _ => cases keyed

section Steps

variable {memo : Memo} {catalog : Catalog} {config : SearchConfig} {expression : Expression}

/-- Implementations only make joins with a key from joins of two inputs. -/
theorem Rules.join_of_keyed {number : RuleId} {rule : Rule}
    (pair_mem : (number, rule) ∈ numberedImplementations) {results : List RuleResult}
    (apply_eq : rule.apply expression memo catalog = .ok (.results results))
    {physical : PhysicalOperator} {children : List GroupId} {condition : Scalar}
    (result_mem : .substitution (.physical physical) children ∈ results)
    (keyed : physical.keyed? = some condition) :
    ∃ type left right, expression.join? = some (type, condition, left, right) ∧
      children = [left, right] ∧ condition.hasEquality = true := by
  rcases @implementation_applies memo catalog expression number rule pair_mem with
    ⟨made, made_eq, runs⟩
  cases apply_eq.symm.trans made_eq
  rcases runs _ result_mem with ⟨operator, same, inputs, operator_eq, physical_mem, rfl, result_eq,
    taken⟩
  cases result_eq
  obtain rfl := PhysicalOperator.rule_eq pair_mem
  rcases LogicalOperator.keyed_of_mem physical_mem keyed with ⟨type, rfl, equality⟩
  cases join_eq : expression.join? with
  | none =>
      -- the rules of these joins look at both inputs before anything else
      cases physical with
      | hashJoin =>
          simp only [PhysicalOperator.rule, hashJoin, join_eq] at apply_eq
          cases apply_eq
          cases result_mem
      | mergeJoin =>
          simp only [PhysicalOperator.rule, mergeJoin, join_eq] at apply_eq
          cases apply_eq
          cases result_mem
      | _ => cases keyed
  | some parts =>
      rcases parts with ⟨own, other, left, right⟩
      rcases Expression.join?_eq_some.mp join_eq with ⟨own_eq, children_eq⟩
      cases operator_eq.symm.trans own_eq
      rcases taken with rfl | ⟨-, none⟩
      · exact ⟨type, left, right, rfl, children_eq, equality⟩
      · cases none

/--
Every join with a key stems from a logical join in its group, over the same inputs, that has an
equality of columns in the same condition.
-/
def Memo.Keyed (memo : Memo) : Prop :=
  ∀ ⦃id made physical condition⦄, memo.expression? id = some made →
    made.operator = .physical physical → physical.keyed? = some condition →
      ∃ source expression type left right, memo.expression? source = some expression ∧
        expression.group = made.group ∧ expression.join? = some (type, condition, left, right) ∧
          made.children = [left, right] ∧ condition.hasEquality = true

theorem RuleJob.step_keyed {job : RuleJob} {progress after : Progress}
    {outcome : Except Failure Step} (consistent : progress.memo.Consistent)
    (keyed : progress.memo.Keyed) (grows : progress.memo.Grows after.memo)
    (step_eq : job.step (Memo.context .standard catalog config) progress = .ok (after, outcome)) :
    after.memo.Keyed := by
  intro id made physical condition made_stored operator_eq key_eq
  rcases marks_of_step step_eq with ⟨-, marked, isNew, marked_eq, -⟩
  rcases marked_of_markApplied consistent marked_eq with ⟨expression, stored, -⟩
  rcases adding_of_step consistent stored step_eq id made made_stored with
    ⟨before, before_stored, same⟩ | ⟨applied, application, results, lookup_eq, apply_eq, results_eq,
      result, result_mem, makes⟩
  · rw [same] at operator_eq ⊢
    rcases keyed before_stored operator_eq key_eq with
      ⟨source, joined, type, left, right, joined_stored, facts⟩
    rcases grows.expressions joined_stored with ⟨marks, later_stored, -⟩
    exact ⟨source, _, type, left, right, later_stored, facts⟩
  · rcases Rulebook.mem_numbered lookup_eq with ⟨number, pair_mem⟩
    rcases List.mem_append.mp pair_mem with transforms | implements
    · rcases makes.operator with ⟨part, part_mem, made_eq⟩
      have logical := Rules.transformation_logical transforms apply_eq results_eq result result_mem
        part part_mem
      rw [← Operator.isLogical_canonical, ← made_eq, operator_eq] at logical
      cases logical
    · rcases @Rules.implementation_applies (progress.memo.marked expression job.rule) catalog
        { expression with applied := expression.applied.insert job.rule } number applied implements
        with ⟨given, given_eq, runs⟩
      cases apply_eq.symm.trans given_eq
      cases results_eq
      rcases runs result result_mem with ⟨operator, algorithm, inputs, source_eq, algorithm_mem, -,
        rfl, -⟩
      rcases makes with ⟨made_eq, group_eq, children_eq⟩
      have canonical : operator.canonical = operator := by
        have kept := consistent.canonical stored
        rw [show expression.operator = .logical operator from source_eq] at kept
        exact Operator.logical.inj kept
      have same : physical = algorithm := by
        rw [operator_eq] at made_eq
        rw [Operator.physical.inj made_eq, LogicalOperator.canonical_of_mem canonical algorithm_mem]
      subst same
      rcases Rules.join_of_keyed implements given_eq result_mem key_eq with
        ⟨type, left, right, join_eq, inputs_eq, equality⟩
      rcases grows.expressions stored with ⟨marks, later_stored, -⟩
      exact ⟨job.expression, _, type, left, right, later_stored, group_eq.symm, join_eq,
        children_eq.trans inputs_eq, equality⟩

end Steps

namespace Memo

/-! ## Premises -/

/-- The tables below an expression. -/
def tablesOf (memo : Memo) (expression : Expression) : List String :=
  expression.operator.form.tablesOver (expression.children.map memo.tablesBelow)

/-- All columns in the scalar expressions of an expression are qualified by tables below it. -/
def ColumnsBelow (memo : Memo) : Prop :=
  ∀ expression ∈ memo.expressions, ∀ scalar ∈ expression.operator.scalars,
    ∀ column ∈ scalar.columns, ∃ table ∈ memo.tablesOf expression, column.table = some table

instance (memo : Memo) : Decidable memo.ColumnsBelow :=
  inferInstanceAs (Decidable (∀ expression ∈ memo.expressions,
    ∀ scalar ∈ expression.operator.scalars, ∀ column ∈ scalar.columns,
      ∃ table ∈ memo.tablesOf expression, column.table = some table))

/-- The expressions of a group have the same tables below them, and no input of theirs is missing. -/
structure Uniform (memo : Memo) : Prop where
  closed : memo.Closed
  single : ∀ expression ∈ memo.expressions,
    expression.operator.form.kind = .filter ∨ expression.operator.form.kind = .project →
      expression.children.length = 1
  equal : ∀ expression ∈ memo.expressions,
    memo.tablesBelow expression.group ⊆ memo.tablesOf expression

/--
Joins have tables below both inputs, and each equality of columns in a join condition links the
inputs. Each equality of columns in a filter has all tables below the filter.
-/
structure Linked (memo : Memo) : Prop where
  supplied : ∀ expression ∈ memo.expressions, ∀ type condition left right,
    expression.join? = some (type, condition, left, right) →
      memo.tablesBelow left ≠ [] ∧ memo.tablesBelow right ≠ []
  links : ∀ expression ∈ memo.expressions, ∀ type condition left right,
    expression.join? = some (type, condition, left, right) →
      ∀ conjunct ∈ condition.conjuncts, conjunct.isEquality = true →
        conjunct.Links (memo.tablesBelow left) (memo.tablesBelow right)
  spans : ∀ expression ∈ memo.expressions, ∀ predicate,
    expression.operator = .logical (.filter predicate) → ∀ conjunct ∈ predicate.conjuncts,
      conjunct.isEquality = true → memo.tablesBelow expression.group ⊆ conjunct.tables

variable {memo : Memo} {catalog : Catalog} {config : SearchConfig} {root : GroupId}
  {report : RunReport}

theorem Linked.of_mem (joins : ∀ expression ∈ memo.expressions, ∀ join ∈ expression.join?,
      (memo.tablesBelow join.2.2.1 ≠ [] ∧ memo.tablesBelow join.2.2.2 ≠ []) ∧
        ∀ conjunct ∈ join.2.1.conjuncts, conjunct.isEquality = true →
          conjunct.Links (memo.tablesBelow join.2.2.1) (memo.tablesBelow join.2.2.2))
    (filters : ∀ expression ∈ memo.expressions, ∀ predicate ∈ expression.operator.predicate?,
      ∀ conjunct ∈ predicate.conjuncts, conjunct.isEquality = true →
        memo.tablesBelow expression.group ⊆ conjunct.tables) : memo.Linked where
  supplied := fun expression expression_mem _ _ _ _ join_eq =>
    (joins expression expression_mem _ join_eq).1
  links := fun expression expression_mem _ _ _ _ join_eq =>
    (joins expression expression_mem _ join_eq).2
  spans := fun expression expression_mem predicate operator_eq =>
    filters expression expression_mem predicate (by rw [operator_eq]; rfl)

/-- What may be demanded of the memo may be demanded of where its expressions stand. -/
theorem ColumnsBelow.arranged (columns : memo.ColumnsBelow) (consistent : memo.Consistent) :
    memo.Arranged memo.Uniform (memo.Uniform ∧ memo.Linked) where
  consistent := consistent
  closed := Uniform.closed
  placed := by
    intro id expression stored operator operator_eq
    have expression_mem : expression ∈ memo.expressions := Array.mem_of_getElem? stored
    have tables_over := tablesOver_subset consistent stored operator_eq
    have tables_eq : memo.tablesOf expression =
        operator.tablesOver (expression.children.map memo.tablesBelow) := by
      rw [tablesOf, operator_eq, Operator.form]
    have form_eq : expression.operator.form = operator := by rw [operator_eq, Operator.form]
    have two_inputs {left right : List String}
        (inputs_eq : expression.children.map memo.tablesBelow = [left, right]) :
        ∃ first second, expression.children = [first, second] ∧ memo.tablesBelow first = left ∧
          memo.tablesBelow second = right := by
      rcases List.map_eq_cons_iff.mp inputs_eq with ⟨first, rest, children_eq, first_eq, rest_eq⟩
      rcases List.map_eq_singleton_iff.mp rest_eq with ⟨second, rfl, second_eq⟩
      exact ⟨first, second, children_eq, first_eq, second_eq⟩
    refine ⟨?_, ?_, fun _ => tables_over, ?_, ?_, ?_, ?_⟩
    · intro condition condition_eq column column_mem
      have scalar_mem : condition ∈ expression.operator.scalars := by
        rw [operator_eq]
        cases operator <;> cases condition_eq <;>
          simp [Operator.scalars, LogicalOperator.scalars]
      rcases columns expression expression_mem condition scalar_mem column column_mem with
        ⟨table, table_mem, table_eq⟩
      exact ⟨table, table_eq, tables_over (tables_eq ▸ table_mem)⟩
    · exact fun uniform => tables_eq ▸ uniform.equal expression expression_mem
    · intro uniform kind_eq
      rw [List.length_map]
      exact uniform.single expression expression_mem (form_eq.symm ▸ kind_eq)
    · rintro ⟨-, linked⟩ predicate rfl
      exact linked.spans expression expression_mem predicate operator_eq
    · rintro ⟨-, linked⟩ type condition left right rfl inputs_eq
      rcases two_inputs inputs_eq with ⟨first, second, children_eq, rfl, rfl⟩
      exact linked.supplied expression expression_mem type condition first second
        (Expression.join?_eq_some.mpr ⟨operator_eq, children_eq⟩)
    · rintro ⟨-, linked⟩ type condition left right rfl inputs_eq
      rcases two_inputs inputs_eq with ⟨first, second, children_eq, rfl, rfl⟩
      exact linked.links expression expression_mem type condition first second
        (Expression.join?_eq_some.mpr ⟨operator_eq, children_eq⟩)

theorem keyed_of_logical
    (logical : ∀ expression ∈ memo.expressions, expression.operator.isLogical = true) :
    memo.Keyed := by
  intro id made physical condition stored operator_eq
  have made_logical := logical made (Array.mem_of_getElem? stored)
  rw [operator_eq] at made_logical
  cases made_logical

/-! ## Searches -/

/--
In whatever a search of a memo of logical expressions, with all columns qualified by tables below
them, leaves behind: the condition of every merge join, and of every hash join that is not a cross
join, has equalities of columns, all of them between tables below the group of the join. If the
expressions of each group had the same tables below them, these are tables below the inputs of the
join. And if all equalities of columns did so in the beginning, each of them links the inputs.
-/
theorem search_keys (built : memo.Built)
    (logical : ∀ expression ∈ memo.expressions, expression.operator.isLogical = true)
    (columns : memo.ColumnsBelow) (runs : memo.Runs .standard catalog config root report)
    {id : ExprId} {made : Expression} {physical : PhysicalOperator} {condition : Scalar}
    (stored : report.memo.expression? id = some made)
    (operator_eq : made.operator = .physical physical)
    (keyed : physical.keyed? = some condition) :
    ∃ left right, made.children = [left, right] ∧
      (∃ key ∈ condition.conjuncts, key.isEquality = true) ∧
      ∀ key ∈ condition.conjuncts, key.isEquality = true →
        key.Links (report.memo.tablesBelow made.group) (report.memo.tablesBelow made.group) ∧
        (memo.Uniform → key.Links (report.memo.tablesBelow left ++ report.memo.tablesBelow right)
          (report.memo.tablesBelow left ++ report.memo.tablesBelow right)) ∧
        (memo.Uniform → memo.Linked →
          key.Links (report.memo.tablesBelow left) (report.memo.tablesBelow right)) := by
  let Kept (memo' : Memo) : Prop :=
    memo'.Arranged memo.Uniform (memo.Uniform ∧ memo.Linked) ∧ memo'.Keyed
  have kept : Kept report.memo := by
    refine runs.keeps (fun goal kept found => ⟨kept.1.flagged And.left goal found, kept.2⟩)
      (fun kept step_eq => ?_) ⟨columns.arranged built.consistent, keyed_of_logical logical⟩
    rcases RuleJob.step_arranged And.left kept.1 step_eq with ⟨arranged, grows⟩
    exact ⟨arranged, RuleJob.step_keyed kept.1.consistent kept.2 grows step_eq⟩
  rcases kept.2 stored operator_eq keyed with ⟨source, joined, type, left, right, joined_stored,
    group_eq, join_eq, children_eq, equality⟩
  have placed := Rules.join_placed kept.1 joined_stored join_eq
  rw [group_eq] at placed
  refine ⟨left, right, children_eq, List.any_eq_true.mp equality, fun key key_mem is_key => ?_⟩
  have own := Scalar.links_self is_key fun column column_mem =>
    placed.qualified rfl column (Scalar.mem_columns_of_conjunct key_mem column_mem)
  refine ⟨own, fun uniform => ?_, fun uniform linked =>
    placed.links ⟨uniform, linked⟩ rfl rfl key key_mem is_key⟩
  have covers := placed.join_covers uniform
  exact own.mono covers covers

/-- The scans of two tables. -/
def scannedPair : Memo :=
  let scan (memo : Memo) (table : String) : Memo :=
    (memo.add (.logical (.scan ⟨"public", table⟩ [] none)) [] none).1
  scan (scan .empty "a") "b"

/-- Their cross product, and a filter over it that compares a column of each. -/
def filteredPair : Memo :=
  let crossed := (scannedPair.add (.logical (.join .inner .truth)) [0, 1] none).1
  (crossed.add (.logical (.filter (.equality "a" "x" "b" "x"))) [2] none).1

theorem untouched_filteredPair : filteredPair.Untouched :=
  .of_mem (by decide) (by decide)

theorem uniform_filteredPair : filteredPair.Uniform where
  closed := untouched_filteredPair.closed
  single := by decide
  equal := by decide

theorem linked_filteredPair : filteredPair.Linked :=
  .of_mem (by decide) (by decide)

/-- The report of a search of the filtered product, with a merge join of the scans. -/
def filteredSearched :=
  tested (filteredPair.search .standard .empty ⟨100, none, true⟩ 3 false).toOption
    (fun report => decide (report.outcome = .ok () ∧
      (report.memo.expression? 11).map (fun made => (made.operator, made.children)) =
        some (.physical (.mergeJoin .inner (.equality "a" "x" "b" "x")), [0, 1])))
    (by decide +kernel)

/-- The comparison of the filter has become the key of a merge join. -/
theorem search_keys_filtered : ∃ report made condition,
    filteredPair.search .standard .empty ⟨100, none, true⟩ 3 false = .ok report ∧
      report.outcome = .ok () ∧ report.memo.expression? 11 = some made ∧
        made.operator = .physical (.mergeJoin .inner condition) ∧ made.children = [0, 1] ∧
          ∃ key ∈ condition.conjuncts,
            key.Links (report.memo.tablesBelow 0) (report.memo.tablesBelow 1) := by
  rcases filteredSearched with ⟨report, searched, facts⟩
  have report_eq := eq_ok_of_toOption searched
  rcases of_decide_eq_true facts with ⟨succeeded, found⟩
  rcases Option.map_eq_some_iff.mp found with ⟨made, stored, made_eq⟩
  rcases Prod.mk.inj made_eq with ⟨operator_eq, inputs_eq⟩
  have built : filteredPair.Built := .add _ _ _ (.add _ _ _ (.add _ _ _ (.add _ _ _ .empty)))
  rcases search_keys built (by decide) (by decide) (.inl ⟨false, report_eq⟩) stored
    operator_eq rfl with ⟨left, right, children_eq, ⟨key, key_mem, is_key⟩, keys⟩
  cases inputs_eq.symm.trans children_eq
  exact ⟨report, made, _, report_eq, succeeded, stored, operator_eq, inputs_eq, key, key_mem,
    (keys key key_mem is_key).2.2 uniform_filteredPair linked_filteredPair⟩

/-! ## Keys that link nothing -/

/-- Whether an expression is a merge join that has no key which links its inputs. -/
def missesKey (memo : Memo) (id : ExprId) : Bool :=
  match memo.expression? id with
  | some ⟨_, _, .physical (.mergeJoin .inner condition), [left, right], _, _⟩ =>
      condition.conjuncts.all fun key =>
        decide (¬ key.Links (memo.tablesBelow left) (memo.tablesBelow right))
  | _ => false

/--
A memo of logical expressions, with all columns qualified by tables below them, and a search of it
that ends well and leaves a merge join behind which has no key that links its inputs.
-/
structure MissesKey (memo : Memo) (root : GroupId) : Prop where
  built : memo.Built
  logical : ∀ expression ∈ memo.expressions, expression.operator.isLogical = true
  columns : memo.ColumnsBelow
  misses : ∃ report id made condition left right,
    memo.search .standard .empty ⟨100, none, true⟩ root false = .ok report ∧
      report.outcome = .ok () ∧ report.memo.expression? id = some made ∧
        made.operator = .physical (.mergeJoin .inner condition) ∧ made.children = [left, right] ∧
          ∀ key ∈ condition.conjuncts,
            ¬ key.Links (report.memo.tablesBelow left) (report.memo.tablesBelow right)

theorem MissesKey.of_tested (built : memo.Built)
    (logical : ∀ expression ∈ memo.expressions, expression.operator.isLogical = true)
    (columns : memo.ColumnsBelow) {id : ExprId} (searched : { report : RunReport //
      (memo.search .standard .empty ⟨100, none, true⟩ root false).toOption = some report ∧
        decide (report.outcome = .ok () ∧ report.memo.missesKey id = true) = true }) :
    memo.MissesKey root := by
  refine ⟨built, logical, columns, ?_⟩
  rcases searched with ⟨report, report_eq, facts⟩
  rcases of_decide_eq_true facts with ⟨succeeded, misses⟩
  rw [missesKey] at misses
  split at misses
  · rename_i stored
    exact ⟨report, id, _, _, _, _, eq_ok_of_toOption report_eq, succeeded, stored, rfl, rfl,
      fun key key_mem => of_decide_eq_true (List.all_eq_true.mp misses key key_mem)⟩
  · cases misses

/-- A join of the two scans that compares two columns of the first one. -/
def oneSided : Memo :=
  (scannedPair.add (.logical (.join .inner (.equality "a" "x" "a" "y"))) [0, 1] none).1

/-- The report of the search below this join. -/
def oneSidedSearched :=
  tested (oneSided.search .standard .empty ⟨100, none, true⟩ 2 false).toOption
    (fun report => decide (report.outcome = .ok () ∧ report.memo.missesKey 8 = true))
    (by decide +kernel)

/-- A merge join may have to merge on two columns of one of its inputs. -/
theorem search_keys_one_sided : oneSided.MissesKey 2 ∧ oneSided.Uniform := by
  have untouched : oneSided.Untouched := .of_mem (by decide) (by decide)
  refine ⟨.of_tested ?_ (by decide) (by decide) oneSidedSearched,
    ⟨untouched.closed, by decide, by decide⟩⟩
  exact .add _ _ _ (.add _ _ _ (.add _ _ _ .empty))

/-- The cross product of three scans, and a filter over it that compares columns of two of them. -/
def unspanned : Memo :=
  let scanned := (scannedPair.add (.logical (.scan ⟨"public", "c"⟩ [] none)) [] none).1
  let crossed := (scanned.add (.logical (.join .inner .truth)) [0, 1] none).1
  let all := (crossed.add (.logical (.join .inner .truth)) [3, 2] none).1
  (all.add (.logical (.filter (.equality "a" "x" "b" "x"))) [4] none).1

/-- The report of the search below the filter. -/
def unspannedSearched :=
  tested (unspanned.search .standard .empty ⟨100, none, true⟩ 5 false).toOption
    (fun report => decide (report.outcome = .ok () ∧ report.memo.missesKey 17 = true))
    (by decide +kernel)

/-- This may also happen if no join has had an equality, because a filter has been merged into one. -/
theorem search_keys_unspanned : unspanned.MissesKey 5 ∧ unspanned.Uniform := by
  have untouched : unspanned.Untouched := .of_mem (by decide) (by decide)
  refine ⟨.of_tested ?_ (by decide) (by decide) unspannedSearched,
    ⟨untouched.closed, by decide, by decide⟩⟩
  exact .add _ _ _ (.add _ _ _ (.add _ _ _ (.add _ _ _ (.add _ _ _ (.add _ _ _ .empty)))))

/-- A filter over a group that holds the cross product of two scans and that of one with itself. -/
def uneven : Memo :=
  let crossed := (scannedPair.add (.logical (.join .inner .truth)) [0, 1] none).1
  let grouped :=
    match crossed.addTo 2 (.logical (.join .inner .truth)) [0, 0] none with
    | .ok (memo, _) => memo
    | .error _ => crossed
  (grouped.add (.logical (.filter (.equality "a" "x" "b" "x"))) [2] none).1

theorem built_uneven : uneven.Built := by
  have crossed := Built.add (.logical (.join .inner .truth)) [0, 1] none
    (.add (.logical (.scan ⟨"public", "b"⟩ [] none)) [] none
      (.add (.logical (.scan ⟨"public", "a"⟩ [] none)) [] none .empty))
  refine .add _ _ _ ?_
  split
  · rename_i added
    exact .addTo crossed added
  · exact crossed

/-- The report of the search below the filter over both products. -/
def unevenSearched :=
  tested (uneven.search .standard .empty ⟨100, none, true⟩ 3 false).toOption
    (fun report => decide (report.outcome = .ok () ∧ report.memo.missesKey 13 = true))
    (by decide +kernel)

/-- Nor does a link between the tables of a group have to link the inputs of all joins in it. -/
theorem search_keys_uneven : uneven.MissesKey 3 ∧ uneven.Linked :=
  ⟨.of_tested built_uneven (by decide) (by decide) unevenSearched,
    .of_mem (by decide) (by decide)⟩

end Memo

end Cascades
