import Cascades.Proofs.Rules.Standard

/-!
# Results of transformations in any memo

In a memo with dangling references a transformation may have no results, because the expressions of a
group or the tables below it cannot be read. If they can be read, then they are the same as in a memo
without dangling references, and so are the results.
-/

namespace Cascades

theorem eq_filterMap_of_mapM {α β ε : Type} {read : α → Except ε β} {value? : α → Option β}
    (reads : ∀ x y, read x = .ok y → value? x = some y) {list : List α} {values : List β}
    (mapped : list.mapM read = .ok values) : values = list.filterMap value? := by
  induction list generalizing values with
  | nil =>
      cases mapped
      rfl
  | cons x rest ih =>
      rw [List.mapM_cons] at mapped
      cases first_eq : read x with
      | error cause =>
          rw [first_eq] at mapped
          cases mapped
      | ok first =>
          rw [first_eq] at mapped
          cases rest_eq : rest.mapM read with
          | error cause =>
              simp only [rest_eq, bind, Except.bind] at mapped
              cases mapped
          | ok others =>
              simp only [rest_eq, bind, Except.bind] at mapped
              cases mapped
              rw [List.filterMap_cons_some (reads x first first_eq), ih rest_eq]

namespace Memo

variable {memo : Memo} {id : GroupId}

theorem group?_of_group {group : Group} (found : memo.group id = .ok group) :
    memo.group? id = some group := by
  rw [Memo.group] at found
  split at found
  · rename_i other other_found
    cases found
    exact other_found
  · cases found

theorem expression?_of_expression {id : ExprId} {expression : Expression}
    (found : memo.expression id = .ok expression) : memo.expression? id = some expression := by
  rw [Memo.expression] at found
  split at found
  · rename_i other other_found
    cases found
    exact other_found
  · cases found

theorem eq_logicalIn {expressions : List Expression} (read : memo.logicalOf id = .ok expressions) :
    expressions = memo.logicalIn id := by
  rw [logicalOf] at read
  cases found : memo.group id with
  | error cause =>
      rw [found] at read
      cases read
  | ok group =>
      rw [found] at read
      rw [logicalIn_eq (group?_of_group found)]
      exact eq_filterMap_of_mapM (fun _ _ => expression?_of_expression) read

theorem eq_tablesBelow {names : List String} (read : memo.tableNames id = .ok names) :
    names = memo.tablesBelow id := by
  simp only [tableNames, bind, Except.bind] at read
  split at read
  · cases read
  · rename_i groups groups_read
    cases read
    rw [eq_filterMap_of_mapM (fun _ _ => group?_of_group) groups_read, tablesBelow,
      List.filterMap_eq_flatMap_toList, List.flatMap_assoc]
    refine List.flatMap_congr fun below _ => ?_
    rw [tablesIn, logicalIn]
    cases memo.group? below with
    | none => rfl
    | some group =>
        rw [Option.toList_some, List.flatMap_singleton, scannedBy_eq]

end Memo

namespace Rules

variable {memo : Memo} {expression : Expression} {results : List RuleResult}

theorem eq_associations (applied : associateJoin expression memo = .ok results) :
    results = associations memo expression := by
  rw [associateJoin] at applied
  split at applied
  · rename_i outer first last join_eq
    rw [associations, join_eq]
    simp only [bind, Except.bind] at applied
    split at applied
    · cases applied
    · rename_i names names_read
      obtain rfl := Memo.eq_tablesBelow names_read
      split at applied
      · cases applied
      · rename_i inputs inputs_read
        obtain rfl := Memo.eq_logicalIn inputs_read
        split at applied
        · cases applied
        · rename_i lists lists_read
          cases applied
          have reads (inner : Scalar × GroupId × GroupId) (made : List RuleResult)
              (made_eq : reassociateOver memo outer last (memo.tablesBelow last) inner = .ok made) :
              some (reassociations memo outer last inner) = some made := by
            simp only [reassociateOver, bind, Except.bind] at made_eq
            split at made_eq
            · cases made_eq
            · rename_i left_names left_read
              split at made_eq
              · cases made_eq
              · rename_i right_names right_read
                cases made_eq
                rw [Memo.eq_tablesBelow left_read, Memo.eq_tablesBelow right_read]
                rfl
          have lists_eq := eq_filterMap_of_mapM reads lists_read
          rw [List.filterMap_eq_map'] at lists_eq
          rw [lists_eq]
          exact List.flatMap_def.symm
  · rename_i other
    cases applied
    rw [associations]
    split
    · rename_i outer first last join_eq
      exact (other outer first last join_eq).elim
    · rfl

theorem eq_filteredJoins (applied : pushPredicate expression memo = .ok results) :
    results = filteredJoins memo expression := by
  rw [pushPredicate] at applied
  split at applied
  · rename_i predicate input others operator_eq children_eq
    rw [filteredJoins, operator_eq, children_eq]
    simp only [bind, Except.bind] at applied
    split at applied
    · cases applied
    · rename_i inputs inputs_read
      cases applied
      rw [Memo.eq_logicalIn inputs_read]
  · rename_i other
    cases applied
    rw [filteredJoins]
    split
    · rename_i predicate input others operator_eq children_eq
      exact (other predicate input others operator_eq children_eq).elim
    · rfl

theorem eq_projectedScans (applied : pushProjection expression memo = .ok results) :
    results = projectedScans memo expression := by
  rw [pushProjection] at applied
  split at applied
  · rename_i scalars aliases input others operator_eq children_eq
    rw [projectedScans, operator_eq, children_eq]
    dsimp only at applied ⊢
    split at applied
    · rename_i nothing
      cases applied
      rw [if_pos nothing]
    · rename_i something
      rw [if_neg something]
      simp only [bind, Except.bind] at applied
      split at applied
      · cases applied
      · rename_i inputs inputs_read
        cases applied
        rw [Memo.eq_logicalIn inputs_read, operator_eq]
  · rename_i other
    cases applied
    rw [projectedScans]
    split
    · rename_i scalars aliases input others operator_eq children_eq
      exact (other scalars aliases input others operator_eq children_eq).elim
    · rfl

/-- What the transformations give, whatever the memo is. -/
theorem transformation_cases {catalog : Catalog} {id : RuleId} {rule : Rule}
    {application : Application} (pair_mem : (id, rule) ∈ numberedTransformations)
    (apply_eq : rule.apply expression memo catalog = .ok application)
    (results_eq : application.outcome = .ok results) :
    results = commuteJoin expression ∨ results = associations memo expression ∨
      results = filteredJoins memo expression ∨ results = projectedScans memo expression := by
  have of_read {read : Checked (List RuleResult)}
      (bound : (do return .results (← read) : Checked Application) = .ok application) :
      read = .ok results := by
    cases read with
    | error cause => cases bound
    | ok made =>
        cases bound
        cases results_eq
        rfl
  simp only [numberedTransformations_eq, List.mem_cons, List.not_mem_nil, or_false,
    Prod.mk.injEq] at pair_mem
  rcases pair_mem with ⟨-, rfl⟩ | ⟨-, rfl⟩ | ⟨-, rfl⟩ | ⟨-, rfl⟩
  · cases apply_eq
    cases results_eq
    exact .inl rfl
  · exact .inr (.inl (eq_associations (of_read apply_eq)))
  · exact .inr (.inr (.inl (eq_filteredJoins (of_read apply_eq))))
  · exact .inr (.inr (.inr (eq_projectedScans (of_read apply_eq))))

/-- The transformations give logical expressions. -/
theorem transformation_logical {catalog : Catalog} {id : RuleId} {rule : Rule}
    {application : Application} (pair_mem : (id, rule) ∈ numberedTransformations)
    (apply_eq : rule.apply expression memo catalog = .ok application)
    (results_eq : application.outcome = .ok results) :
    ∀ result ∈ results, ∀ operator ∈ result.operators, operator.isLogical = true := by
  intro result result_mem
  rcases transformation_cases pair_mem apply_eq results_eq with rfl | rfl | rfl | rfl
  · rcases mem_commuteJoin.mp result_mem with ⟨type, condition, left, right, -, -, rfl⟩
    simp [RuleResult.operators, Operator.isLogical]
  · rcases of_mem_associations result_mem with
      ⟨outer, first, last, inner, left, right, input, -, -, -, stay, moved, -, result_mem⟩
    rw [(mem_reassociate.mp result_mem).2]
    simp [RuleResult.operators, Subplan.operatorsOf, Subplan.operators, Operator.isLogical]
  · rcases of_mem_filteredJoins result_mem with
      ⟨predicate, input, others, joined, type, condition, left, right, -, -, -, -, -, rfl⟩
    simp [RuleResult.operators, Operator.isLogical]
  · rcases of_mem_projectedScans result_mem with
      ⟨scalars, aliases, input, others, scan, table, columns, predicate, operator_eq, -, -, -, rfl⟩
    simp [RuleResult.operators, Subplan.operatorsOf, Subplan.operators, Operator.isLogical,
      operator_eq]

end Rules

end Cascades
