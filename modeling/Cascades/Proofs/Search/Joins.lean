import Cascades.Proofs.Rules.Descent
import Cascades.Proofs.Search.Fixpoint

/-!
# Joins of a saturated memo

Once commutativity is settled for a join, the memo stores the turned join. Once associativity is, it
stores the join of every moved input with the last one, and the join above it. Where all groups are
explored this holds of all joins.
-/

namespace Cascades

open Rules (connects reassociate numberedTransformations)

/-! ## Patterns -/

namespace Expression

variable {memo : Memo} {expression : Expression} {type : JoinType} {condition : Scalar}
  {left right : GroupId}

theorem matches_join (join_eq : expression.join? = some (type, condition, left, right)) :
    Pattern.join.Matches memo expression := by
  rcases join?_eq_some.mp join_eq with ⟨operator_eq, children_eq⟩
  refine ⟨?_, ?_, ?_⟩
  · rw [operator_eq]
    rfl
  · rw [children_eq]
    rfl
  · rw [children_eq]
    exact ⟨.inl rfl, .inl rfl, trivial⟩

theorem matches_joinOverJoin (join_eq : expression.join? = some (type, condition, left, right))
    {input : Expression} (stored : memo.expression? input.id = some input) (group_eq : input.group = left)
    (matches_ : Pattern.join.Matches memo input) : Pattern.joinOverJoin.Matches memo expression := by
  have top : Pattern.join.Matches memo expression := matches_join join_eq
  refine ⟨top.1, top.2.1, ?_⟩
  rw [(join?_eq_some.mp join_eq).2]
  exact ⟨.inr ⟨input, stored, group_eq, matches_⟩, .inl rfl, trivial⟩

end Expression

theorem Operator.eq_of_same_join {operator : Operator} {type : JoinType} {condition : Scalar}
    (rigid : condition.Rigid) (same : operator.same (.logical (.join type condition)) = true) :
    operator = .logical (.join type condition) := by
  rw [Operator.same_iff] at same
  cases operator with
  | physical operator => cases same
  | logical operator =>
      cases operator with
      | join other held =>
          rcases LogicalOperator.join.inj (Operator.logical.inj same) with ⟨rfl, held_eq⟩
          rw [rigid held (Scalar.same_iff.mpr held_eq)]
      | _ => cases same

/-! ## Settled rules -/

namespace Memo

/-- The memo holds the inner join of a nested one over groups. -/
theorem StoresInputs.nested_join {memo : Memo} {groups : List GroupId} {top below : Operator}
    {stay moved last : GroupId}
    (inputs : memo.StoresInputs groups (.nested top [.group stay, .fresh below [.group moved, .group last]])) :
    ∃ expression, groups = [stay, expression.group] ∧
      memo.find? below.canonical [moved, last] = some expression := by
  rcases groups with _ | ⟨group, _ | ⟨inner, _ | ⟨other, rest⟩⟩⟩
  · exact inputs.elim
  · exact inputs.2.elim
  · rcases inputs with ⟨rfl, ⟨below, plans, expression, found, rfl⟩, -⟩
    rcases below with _ | ⟨moved_group, _ | ⟨last_group, _ | ⟨other, rest⟩⟩⟩
    · exact plans.elim
    · exact plans.2.elim
    · rcases plans with ⟨rfl, rfl, -⟩
      exact ⟨expression, rfl, found⟩
    · exact plans.2.2.elim
  · exact inputs.2.2.elim

section Settled

variable {memo : Memo} {catalog : Catalog} {expression : Expression} {type : JoinType}
  {condition : Scalar} {left right : GroupId}

/-- A symmetric join has been turned. -/
theorem Settled.commuted (settled : memo.Settled catalog expression Rules.joinCommutativity)
    (join_eq : expression.join? = some (type, condition, left, right)) (symmetric : type.isSymmetric = true) :
    memo.StoresResult (.substitution (.logical (.join type condition)) [right, left]) := by
  have operator_eq := (Expression.join?_eq_some.mp join_eq).1
  have promised : Rules.joinCommutativity.promise expression memo catalog = .ok .medium := by
    simp only [Rules.joinCommutativity, operator_eq, symmetric]
    rfl
  exact settled .medium (Rules.commuteJoin expression) (Expression.matches_join join_eq) promised
    (by decide) rfl _ (Rules.mem_commuteJoin.mpr ⟨type, condition, left, right, join_eq, symmetric, rfl⟩)

variable (consistent : memo.Consistent) (closed : memo.Closed)
include consistent closed

/-- A join over joins has been taken apart. -/
theorem Settled.associated (settled : memo.Settled catalog expression Rules.joinAssociativity)
    (stored : memo.expression? expression.id = some expression)
    (outer_eq : expression.localInnerJoin? = some (condition, left, right)) {result : RuleResult}
    (result_mem : result ∈ Rules.associations memo expression) : memo.StoresResult result := by
  rcases Rules.of_mem_associations result_mem with ⟨outer, first, last, inner, lower, upper, input,
    join_eq, input_mem, inner_eq, -⟩
  rcases Expression.localInnerJoin?_eq_some.mp outer_eq with ⟨operator_eq, -, children_eq⟩
  cases (Expression.join?_eq_some.mpr ⟨operator_eq, children_eq⟩).symm.trans join_eq
  rcases (mem_logicalIn consistent).mp input_mem with ⟨input_stored, group_eq, -⟩
  have fits : Rules.joinAssociativity.pattern.Matches memo expression := by
    rcases Expression.localInnerJoin?_eq_some.mp inner_eq with ⟨input_operator_eq, -, inputs_eq⟩
    exact Expression.matches_joinOverJoin join_eq input_stored group_eq
      (Expression.matches_join (Expression.join?_eq_some.mpr ⟨input_operator_eq, inputs_eq⟩))
  have promised : Rules.joinAssociativity.promise expression memo catalog = .ok .medium := by
    have left_lt : left < memo.groups.size := closed stored left (by simp [children_eq])
    have some_join : (memo.logicalIn left).any (·.localInnerJoin?.isSome) = true :=
      List.any_eq_true.mpr ⟨input, input_mem, by rw [inner_eq]; rfl⟩
    simp only [Rules.joinAssociativity, outer_eq, logicalOf_eq consistent left_lt, bind, Except.bind,
      some_join]
    rfl
  have apply_eq : Rules.joinAssociativity.apply expression memo catalog =
      .ok (.results (Rules.associations memo expression)) := by
    simp only [Rules.joinAssociativity, Rules.associateJoin_eq consistent closed stored]
    rfl
  exact settled .medium _ fits promised (by decide) apply_eq _ result_mem

end Settled

/-! ## Joins on a condition -/

/-- A logical expression of a group is the inner join of two groups on a condition. -/
def JoinsOn (memo : Memo) (group : GroupId) (condition : Scalar) (left right : GroupId) : Prop :=
  ∃ expression ∈ memo.logicalIn group, expression.operator = .logical (.join .inner condition) ∧
    expression.children = [left, right]

section JoinsOn

variable {memo larger : Memo} {group left right : GroupId} {condition : Scalar}

/-- A join on a condition without numbers is found as it is. -/
theorem joinsOn_of_find? (consistent : memo.Consistent) (rigid : condition.Rigid) {expression : Expression}
    (found : memo.find? (.logical (.join .inner condition)) [left, right] = some expression) :
    memo.JoinsOn expression.group condition left right := by
  rcases expression?_of_find? found with ⟨-, children_eq, same⟩
  have operator_eq := Operator.eq_of_same_join rigid same
  refine ⟨expression, ?_, operator_eq, children_eq⟩
  exact (mem_logicalIn consistent).mpr ⟨consistent.find?_id found, rfl, by rw [operator_eq]; rfl⟩

namespace JoinsOn

theorem grows (joins : memo.JoinsOn group condition left right) (consistent : memo.Consistent)
    (larger_consistent : larger.Consistent) (grows : memo.Grows larger) :
    larger.JoinsOn group condition left right := by
  rcases joins with ⟨expression, expression_mem, operator_eq, children_eq⟩
  rcases (mem_logicalIn consistent).mp expression_mem with ⟨stored, group_eq, logical⟩
  rcases grows.expressions stored with ⟨applied, kept, -⟩
  have kept_mem : { expression with applied } ∈ larger.logicalIn group :=
    (mem_logicalIn larger_consistent).mpr ⟨kept, group_eq, logical⟩
  exact ⟨_, kept_mem, operator_eq, children_eq⟩

variable (consistent : memo.Consistent)
include consistent

/-- Two groups are joined on a condition in one place only. -/
theorem unique {other : GroupId} (joins : memo.JoinsOn group condition left right)
    (other_joins : memo.JoinsOn other condition left right) : other = group := by
  rcases joins with ⟨expression, expression_mem, operator_eq, children_eq⟩
  rcases other_joins with ⟨twin, twin_mem, twin_operator_eq, twin_children_eq⟩
  rcases (mem_logicalIn consistent).mp expression_mem with ⟨stored, rfl, -⟩
  rcases (mem_logicalIn consistent).mp twin_mem with ⟨twin_stored, rfl, -⟩
  have same : expression.operator.same twin.operator = true := by
    rw [operator_eq, twin_operator_eq]
    exact Operator.same_self _
  have id_eq := consistent.unique stored twin_stored (children_eq.trans twin_children_eq.symm) same
  rw [id_eq, twin_stored] at stored
  cases stored
  rfl

theorem canonical (joins : memo.JoinsOn group condition left right) : condition.canonical = condition := by
  rcases joins with ⟨expression, expression_mem, operator_eq, -⟩
  have stored := ((mem_logicalIn consistent).mp expression_mem).1
  have operator_canonical := consistent.canonical stored
  rw [operator_eq] at operator_canonical
  exact Operator.condition_canonical operator_canonical

end JoinsOn

end JoinsOn

/-- Reassociating an inner join over one of its first input is among the associations of the join. -/
theorem JoinsOn.mem_associations {memo : Memo} {expression : Expression} {outer inner : Scalar}
    {first last stay moved : GroupId} (join_eq : expression.join? = some (.inner, outer, first, last))
    (inputs : memo.JoinsOn first inner stay moved ∨ memo.JoinsOn first inner moved stay)
    (inner_local : inner.hasOuterRefs = false) {result : RuleResult}
    (result_mem : result ∈ reassociate outer inner stay moved last (memo.tablesBelow moved)
      (memo.tablesBelow last)) : result ∈ Rules.associations memo expression := by
  rw [Rules.associations, join_eq]
  refine List.mem_flatMap.mpr ?_
  rcases inputs with ⟨input, input_mem, operator_eq, inputs_eq⟩ | ⟨input, input_mem, operator_eq, inputs_eq⟩
  · have inner_eq := Expression.localInnerJoin?_eq_some.mpr ⟨operator_eq, inner_local, inputs_eq⟩
    exact ⟨_, List.mem_filterMap.mpr ⟨input, input_mem, inner_eq⟩, List.mem_append_left _ result_mem⟩
  · have inner_eq := Expression.localInnerJoin?_eq_some.mpr ⟨operator_eq, inner_local, inputs_eq⟩
    exact ⟨_, List.mem_filterMap.mpr ⟨input, input_mem, inner_eq⟩, List.mem_append_right _ result_mem⟩

/-! ## Saturated memos -/

section Explored

variable {memo : Memo} {catalog : Catalog} (saturating : memo.Saturating catalog)
  (explored : ∀ group < memo.groups.size, memo.Reached group .explore) {group : GroupId}
include saturating explored

theorem Saturating.settled_everywhere {expression : Expression}
    (expression_mem : expression ∈ memo.logicalIn group) {number : RuleId} {rule : Rule}
    (pair_mem : (number, rule) ∈ numberedTransformations) : memo.Settled catalog expression rule := by
  rcases (mem_logicalIn saturating.consistent).mp expression_mem with ⟨stored, group_eq, -⟩
  have group_lt := saturating.consistent.group_lt stored
  exact saturating.settled (explored group (group_eq ▸ group_lt)) expression_mem pair_mem

theorem JoinsOn.commuted {condition : Scalar} {left right : GroupId} (rigid : condition.Rigid)
    (joins : memo.JoinsOn group condition left right) : ∃ other, memo.JoinsOn other condition right left := by
  have condition_canonical := joins.canonical saturating.consistent
  rcases joins with ⟨expression, expression_mem, operator_eq, children_eq⟩
  have settled := saturating.settled_everywhere explored expression_mem
    (List.mem_cons_self : (Rules.commutativityId, Rules.joinCommutativity) ∈ numberedTransformations)
  have join_eq := Expression.join?_eq_some.mpr ⟨operator_eq, children_eq⟩
  rcases settled.commuted join_eq rfl with ⟨groups, rfl, other, found⟩
  rw [RuleResult.operator, Operator.canonical, LogicalOperator.canonical, condition_canonical] at found
  exact ⟨_, joinsOn_of_find? saturating.consistent rigid found⟩

/-- An input of an input has been joined with the last one, on the conjuncts that connect the two. -/
theorem JoinsOn.associated {outer inner : Scalar} {first last stay moved : GroupId}
    (joins : memo.JoinsOn group outer first last)
    (inputs : memo.JoinsOn first inner stay moved ∨ memo.JoinsOn first inner moved stay)
    (outer_local : outer.hasOuterRefs = false) (inner_local : inner.hasOuterRefs = false)
    (rigid : ∀ conjunct ∈ inner.conjuncts ++ outer.conjuncts, conjunct.Rigid)
    (some_pushed : outer.conjuncts.filter
      (connects (memo.tablesBelow moved) (memo.tablesBelow last)) ≠ []) :
    ∃ below above, memo.JoinsOn below (.canonicalConjunction (outer.conjuncts.filter
        (connects (memo.tablesBelow moved) (memo.tablesBelow last)))) moved last ∧
      memo.JoinsOn above (.canonicalConjunction (inner.conjuncts ++ outer.conjuncts.filter
        (not ∘ connects (memo.tablesBelow moved) (memo.tablesBelow last)))) stay below := by
  have consistent := saturating.consistent
  rcases joins with ⟨expression, expression_mem, operator_eq, children_eq⟩
  have stored := ((mem_logicalIn consistent).mp expression_mem).1
  have outer_eq := Expression.localInnerJoin?_eq_some.mpr ⟨operator_eq, outer_local, children_eq⟩
  have settled := saturating.settled_everywhere explored expression_mem
    (List.mem_cons_of_mem _ List.mem_cons_self :
      (UInt16.ofNat 1, Rules.joinAssociativity) ∈ numberedTransformations)
  have given := JoinsOn.mem_associations (Expression.join?_eq_some.mpr ⟨operator_eq, children_eq⟩) inputs
    inner_local (Rules.mem_reassociate.mpr ⟨some_pushed, rfl⟩)
  have kept_atoms : ∀ conjunct ∈ inner.conjuncts ++ outer.conjuncts.filter
      (not ∘ connects (memo.tablesBelow moved) (memo.tablesBelow last)), conjunct.conjuncts = [conjunct] := by
    intro conjunct conjunct_mem
    rcases List.mem_append.mp conjunct_mem with here | there
    · exact Scalar.conjuncts_of_mem inner here
    · exact Scalar.conjuncts_of_mem outer (List.mem_filter.mp there).1
  have pushed_atoms : ∀ conjunct ∈ outer.conjuncts.filter
      (connects (memo.tablesBelow moved) (memo.tablesBelow last)), conjunct.conjuncts = [conjunct] :=
    fun conjunct conjunct_mem => Scalar.conjuncts_of_mem outer (List.mem_filter.mp conjunct_mem).1
  rcases settled.associated consistent saturating.closed stored outer_eq
    given with ⟨groups, inputs, other, found⟩
  rcases inputs.nested_join with ⟨below, rfl, below_found⟩
  rw [Operator.canonical_joinOf pushed_atoms] at below_found
  rw [RuleResult.operator, Operator.canonical_joinOf kept_atoms] at found
  refine ⟨_, _, joinsOn_of_find? consistent (Scalar.rigid_canonicalConjunction ?_) below_found,
    joinsOn_of_find? consistent (Scalar.rigid_canonicalConjunction ?_) found⟩
  · exact fun conjunct conjunct_mem =>
      rigid conjunct (List.mem_append_right _ (List.mem_filter.mp conjunct_mem).1)
  · intro conjunct conjunct_mem
    rcases List.mem_append.mp conjunct_mem with here | there
    · exact rigid conjunct (List.mem_append_left _ here)
    · exact rigid conjunct (List.mem_append_right _ (List.mem_filter.mp there).1)

end Explored

end Memo

end Cascades
