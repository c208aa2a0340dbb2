import Cascades.Proofs.Keys.Storing

/-!
# Transformations of an arranged memo

Where every expression may stand in its group over its inputs, the transformations of an expression
give expressions that may stand in this group as well. A search only stores such expressions and
physical ones, so it leaves a memo arranged.
-/

namespace Cascades

open Memo

namespace Rules

variable {strict linked : Prop} {memo : Memo} {id : ExprId} {expression : Expression}
  {result : RuleResult}

section Transformations

variable (arranged : memo.Arranged strict linked)
  (stored : memo.expression? id = some expression)
include arranged stored

/-- The tables below an input of an expression are below its group. -/
theorem input_subset {operator : LogicalOperator} {input : GroupId}
    (operator_eq : expression.operator = .logical operator) (kind_ne : operator.kind ≠ .scan)
    (input_mem : input ∈ expression.children) :
    memo.tablesBelow input ⊆ memo.tablesBelow expression.group := by
  refine List.Subset.trans ?_ (tablesOver_subset arranged.consistent stored operator_eq)
  intro name name_mem
  have flattened : name ∈ (expression.children.map memo.tablesBelow).flatten :=
    List.mem_flatten.mpr ⟨_, List.mem_map_of_mem input_mem, name_mem⟩
  cases operator with
  | scan table columns predicate => exact (kind_ne rfl).elim
  | _ => exact flattened

theorem join_placed {type : JoinType} {condition : Scalar} {left right : GroupId}
    (join_eq : expression.join? = some (type, condition, left, right)) :
    (LogicalOperator.join type condition).Placed strict linked (memo.tablesBelow expression.group)
      [memo.tablesBelow left, memo.tablesBelow right] := by
  rcases Expression.join?_eq_some.mp join_eq with ⟨operator_eq, children_eq⟩
  have placed := arranged.placed stored _ operator_eq
  rwa [children_eq] at placed

theorem commuteJoin_placed (result_mem : result ∈ commuteJoin expression) :
    result.Placed strict linked memo.tablesBelow expression.group := by
  rcases mem_commuteJoin.mp result_mem with ⟨type, condition, left, right, join_eq, -, rfl⟩
  refine .substitution fun logical same => ?_
  cases same
  exact (join_placed arranged stored join_eq).commuted

theorem associations_placed (implies : linked → strict)
    (result_mem : result ∈ associations memo expression) :
    result.Placed strict linked memo.tablesBelow expression.group := by
  rcases of_mem_associations result_mem with ⟨outer, first, last, inner, left, right, input, join_eq,
    input_mem, inner_eq, stay, moved, parts, result_mem⟩
  rcases (mem_logicalIn arranged.consistent).mp input_mem with ⟨input_stored, rfl, -⟩
  rcases Expression.localInnerJoin?_eq_some.mp inner_eq with ⟨inner_operator_eq, -, inputs_eq⟩
  have placed := join_placed arranged stored join_eq
  have inner_placed : (LogicalOperator.join .inner inner).Placed strict linked
      (memo.tablesBelow input.group) [memo.tablesBelow stay, memo.tablesBelow moved] := by
    have in_order := join_placed arranged input_stored
      (Expression.join?_eq_some.mpr ⟨inner_operator_eq, inputs_eq⟩)
    rcases parts with ⟨rfl, rfl⟩ | ⟨rfl, rfl⟩
    · exact in_order
    · exact in_order.commuted
  rcases Expression.join?_eq_some.mp join_eq with ⟨operator_eq, children_eq⟩
  have first_subset : memo.tablesBelow input.group ⊆ memo.tablesBelow expression.group :=
    input_subset arranged stored operator_eq (by rintro ⟨⟩) (by simp [children_eq])
  rw [(mem_reassociate.mp result_mem).2]
  have below := placed.pushed inner_placed fun conjunct conjunct_mem =>
    List.mem_filter.mp conjunct_mem
  have unconnected : ∀ conjunct ∈ outer.conjuncts.filter
      (not ∘ connects (memo.tablesBelow moved) (memo.tablesBelow last)),
      conjunct ∈ outer.conjuncts ∧
        connects (memo.tablesBelow moved) (memo.tablesBelow last) conjunct = false := by
    intro conjunct conjunct_mem
    rcases List.mem_filter.mp conjunct_mem with ⟨outer_mem, apart⟩
    exact ⟨outer_mem, by simpa using apart⟩
  refine @RuleResult.Placed.nested _ _ _ _ _ _ [stay] [moved, last] below fun logical same => ?_
  cases same
  simp only [List.map_cons, List.map_nil, List.singleton_append, LogicalOperator.tablesOver_join]
  exact placed.kept implies inner_placed first_subset unconnected

theorem filteredJoins_placed (implies : linked → strict)
    (result_mem : result ∈ filteredJoins memo expression) :
    result.Placed strict linked memo.tablesBelow expression.group := by
  rcases of_mem_filteredJoins result_mem with ⟨predicate, input, others, joined, type, condition,
    left, right, operator_eq, children_eq, joined_mem, join_eq, -, rfl⟩
  rcases (mem_logicalIn arranged.consistent).mp joined_mem with ⟨joined_stored, rfl, -⟩
  have placed := arranged.placed stored _ operator_eq
  rw [children_eq, List.map_cons] at placed
  have subset : memo.tablesBelow joined.group ⊆ memo.tablesBelow expression.group :=
    input_subset arranged stored operator_eq (by rintro ⟨⟩) (by simp [children_eq])
  refine .substitution fun logical same => ?_
  cases same
  exact placed.merged implies (join_placed arranged joined_stored join_eq) subset

theorem projectedScans_placed (result_mem : result ∈ projectedScans memo expression) :
    result.Placed strict linked memo.tablesBelow expression.group := by
  rcases of_mem_projectedScans result_mem with ⟨scalars, aliases, input, others, scan, table, columns,
    predicate, operator_eq, children_eq, scan_mem, scan_eq, rfl⟩
  rcases (mem_logicalIn arranged.consistent).mp scan_mem with ⟨scan_stored, rfl, -⟩
  have placed := arranged.placed stored _ operator_eq
  rw [children_eq, List.map_cons] at placed
  have subset : memo.tablesBelow scan.group ⊆ memo.tablesBelow expression.group :=
    input_subset arranged stored operator_eq (by rintro ⟨⟩) (by simp [children_eq])
  refine @RuleResult.Placed.nested _ _ _ _ _ _ [] [] (.scanned []) fun logical same => ?_
  cases operator_eq.symm.trans same
  exact placed.projected (arranged.placed scan_stored _ scan_eq) subset

/-- The results of a standard rule may stand in the group of the expression. -/
theorem standard_placed (implies : linked → strict) {number : RuleId} {rule : Rule}
    {catalog : Catalog} {application : Application} {results : List RuleResult}
    (lookup_eq : Rulebook.standard.lookup number = .ok rule)
    (apply_eq : rule.apply expression memo catalog = .ok application)
    (results_eq : application.outcome = .ok results) :
    ∀ result ∈ results, (strict → result.Grounded memo) ∧
      result.Placed strict linked memo.tablesBelow expression.group := by
  intro result result_mem
  rcases Rulebook.mem_numbered lookup_eq with ⟨own, pair_mem⟩
  rcases List.mem_append.mp pair_mem with transforms | implements
  · refine ⟨fun demand => ?_, ?_⟩
    · rcases (steady_of_mem transforms).applies arranged.consistent (arranged.closed demand)
        ((arranged.consistent.numbered stored).symm ▸ stored) with ⟨made, made_eq, facts⟩
      cases apply_eq.symm.trans made_eq
      cases results_eq
      exact (facts result result_mem).1
    · rcases transformation_cases transforms apply_eq results_eq with rfl | rfl | rfl | rfl
      · exact commuteJoin_placed arranged stored result_mem
      · exact associations_placed arranged stored implies result_mem
      · exact filteredJoins_placed arranged stored implies result_mem
      · exact projectedScans_placed arranged stored result_mem
  · rcases @implementation_applies memo catalog expression own rule implements with
      ⟨made, made_eq, runs⟩
    cases apply_eq.symm.trans made_eq
    cases results_eq
    refine ⟨fun demand => (runs result result_mem).implements.grounded
      (arranged.closed demand stored), ?_⟩
    rcases runs result result_mem with ⟨operator, physical, children, -, -, -, rfl, -⟩
    exact .substitution fun logical same => by cases same

end Transformations

end Rules

variable {strict linked : Prop} {catalog : Catalog} {config : SearchConfig}

/-- After a step of a rule job, every expression may stand where it is. -/
theorem RuleJob.step_arranged (implies : linked → strict) {job : RuleJob}
    {progress after : Progress} {outcome : Except Failure Step}
    (arranged : progress.memo.Arranged strict linked)
    (step_eq : job.step (Memo.context .standard catalog config) progress = .ok (after, outcome)) :
    after.memo.Arranged strict linked ∧ progress.memo.Grows after.memo := by
  rcases marks_of_step step_eq with ⟨-, marked, isNew, marked_eq, inserted⟩
  rcases marked_of_markApplied arranged.consistent marked_eq with ⟨expression, stored, rfl⟩
  have start := @Arranged.marked _ _ _ arranged implies _ _ job.rule stored
  have grows : progress.memo.Grows (progress.memo.marked expression job.rule) :=
    (extends_marked arranged.consistent stored).grows
  rcases inserted with same | ⟨applied, held, application, results, added, stored_outcome, lookup_eq,
    held_eq, apply_eq, results_eq, inserted⟩
  · exact same ▸ ⟨start, grows⟩
  · have placed := Rules.standard_placed start held_eq implies lookup_eq apply_eq results_eq
    let Kept (memo : Memo) : Prop := memo.Arranged strict linked ∧
      (progress.memo.marked expression job.rule).Follows strict memo
    have kept : Kept after.memo := insertAll_each (fun result result_mem memo kept =>
      prepare_arranged implies start.consistent (start.consistent.group_lt held_eq)
        (placed result result_mem).1 (placed result result_mem).2 kept.1 kept.2)
      ⟨start, .refl _⟩ inserted
    exact ⟨kept.1, grows.trans kept.2.grows⟩

end Cascades
