import Cascades.Proofs.Pattern
import Cascades.Proofs.Rules.Tables
import Cascades.Proofs.Search.Results
import Cascades.Rules.Pushdown

/-!
# Transformations

The transformations read an expression and the logical expressions of groups below its children.
They never fail in a memo without dangling children, their results name existing groups only, and
over explored groups their promises and results never change.
-/

namespace Cascades

/-- A memo and a larger one in which explored groups have stayed as they were. -/
structure Memo.Evolves (memo larger : Memo) : Prop where
  extends_ : memo.Extends larger
  consistent : memo.Consistent
  closed : memo.Closed
  larger_consistent : larger.Consistent
  larger_closed : larger.Closed
  below : memo.ExploredBelow

namespace Memo.Evolves

variable {memo larger : Memo} (evolves : memo.Evolves larger) {id : GroupId}
  (explored : memo.Reached id .explore)
include evolves explored

theorem frozen : memo.Frozen larger id :=
  evolves.extends_.frozen evolves.consistent explored

theorem logicalOf_eq : memo.logicalOf id = .ok (memo.logicalIn id) :=
  Memo.logicalOf_eq evolves.consistent explored.lt

theorem larger_logicalOf_eq : larger.logicalOf id = .ok (larger.logicalIn id) :=
  Memo.logicalOf_eq evolves.larger_consistent
    (Nat.lt_of_lt_of_le explored.lt evolves.extends_.size_le)

end Memo.Evolves

/-- A rule that reads frozen parts of a memo only, without a failure. -/
structure Rule.Steady (rule : Rule) (catalog : Catalog) : Prop where
  pattern : rule.pattern.IsLogical
  promises : ∀ {memo : Memo} {expression : Expression}, memo.Consistent → memo.Closed →
    memo.expression? expression.id = some expression →
      ∃ promise, rule.promise expression memo catalog = .ok promise
  applies : ∀ {memo : Memo} {expression : Expression}, memo.Consistent → memo.Closed →
    memo.expression? expression.id = some expression →
      ∃ results, rule.apply expression memo catalog = .ok (.results results) ∧
        ∀ result ∈ results, result.Grounded memo ∧
          ∀ operator ∈ result.operators, operator.isLogical = true
  promise_frozen : ∀ {memo larger : Memo} {expression later : Expression}, memo.Evolves larger →
    memo.expression? expression.id = some expression → larger.expression? later.id = some later →
      later.unmarked = expression.unmarked →
        (∀ child ∈ expression.children, memo.Reached child .explore) →
          rule.promise later larger catalog = rule.promise expression memo catalog
  apply_frozen : ∀ {memo larger : Memo} {expression later : Expression}, memo.Evolves larger →
    memo.expression? expression.id = some expression → larger.expression? later.id = some later →
      later.unmarked = expression.unmarked →
        (∀ child ∈ expression.children, memo.Reached child .explore) →
          rule.apply later larger catalog = rule.apply expression memo catalog

namespace Expression

theorem join?_eq_some {expression : Expression} {type : JoinType} {condition : Scalar}
    {left right : GroupId} : expression.join? = some (type, condition, left, right) ↔
      expression.operator = .logical (.join type condition) ∧
        expression.children = [left, right] := by
  rw [join?]
  constructor
  · intro found
    split at found
    · rename_i operator_eq children_eq
      cases found
      exact ⟨operator_eq, children_eq⟩
    · cases found
  · rintro ⟨operator_eq, children_eq⟩
    rw [operator_eq, children_eq]

theorem localInnerJoin?_eq_some {expression : Expression} {condition : Scalar}
    {left right : GroupId} : expression.localInnerJoin? = some (condition, left, right) ↔
      expression.operator = .logical (.join .inner condition) ∧
        condition.hasOuterRefs = false ∧ expression.children = [left, right] := by
  rw [localInnerJoin?]
  constructor
  · intro found
    split at found
    · rename_i inner_condition inner_left inner_right join_eq
      rcases join?_eq_some.mp join_eq with ⟨operator_eq, children_eq⟩
      split at found
      · cases found
      · rename_i local_
        cases found
        exact ⟨operator_eq, by simpa using local_, children_eq⟩
    · cases found
  · rintro ⟨operator_eq, local_, children_eq⟩
    rw [join?_eq_some.mpr ⟨operator_eq, children_eq⟩]
    simp [local_]

theorem join?_unmarked (expression : Expression) : expression.unmarked.join? = expression.join? :=
  rfl

theorem localInnerJoin?_unmarked (expression : Expression) :
    expression.unmarked.localInnerJoin? = expression.localInnerJoin? :=
  rfl

theorem join?_congr {expression later : Expression}
    (same : later.unmarked = expression.unmarked) : later.join? = expression.join? := by
  rw [← join?_unmarked, same, join?_unmarked]

theorem localInnerJoin?_congr {expression later : Expression}
    (same : later.unmarked = expression.unmarked) :
    later.localInnerJoin? = expression.localInnerJoin? := by
  rw [← localInnerJoin?_unmarked, same, localInnerJoin?_unmarked]

end Expression

namespace Rules

variable {memo : Memo} {expression : Expression} {catalog : Catalog}

/-! ## Commutativity -/

theorem mem_commuteJoin {result : RuleResult} : result ∈ commuteJoin expression ↔
    ∃ type condition left right, expression.join? = some (type, condition, left, right) ∧
      type.isSymmetric = true ∧
        result = .substitution (.logical (.join type condition)) [right, left] := by
  rw [commuteJoin]
  cases join_eq : expression.join? with
  | none => simp
  | some parts =>
      rcases parts with ⟨type, condition, left, right⟩
      cases symmetric : type.isSymmetric <;> simp [symmetric]

theorem commuteJoin_grounded (closed : memo.Closed)
    (stored : memo.expression? expression.id = some expression) :
    ∀ result ∈ commuteJoin expression,
      result.Grounded memo ∧ ∀ operator ∈ result.operators, operator.isLogical = true := by
  intro result result_mem
  rcases mem_commuteJoin.mp result_mem with ⟨type, condition, left, right, join_eq, -, rfl⟩
  have children_eq := (Expression.join?_eq_some.mp join_eq).2
  refine ⟨?_, by simp [RuleResult.operators, Operator.isLogical]⟩
  intro child child_mem
  refine closed stored child ?_
  rw [children_eq]
  simpa [or_comm] using child_mem

theorem joinCommutativity_steady : joinCommutativity.Steady catalog where
  pattern := ⟨⟨.join, rfl⟩, trivial, trivial, trivial⟩
  promises := by
    intro memo expression _ _ _
    dsimp only [joinCommutativity]
    split
    · exact ⟨_, rfl⟩
    · exact ⟨_, rfl⟩
  applies := by
    intro memo expression _ closed stored
    exact ⟨_, rfl, commuteJoin_grounded closed stored⟩
  promise_frozen := by
    intro memo larger expression later _ _ _ same _
    rcases Expression.unmarked_eq_iff.mp same with ⟨-, -, operator_eq, -⟩
    simp only [joinCommutativity, operator_eq]
  apply_frozen := by
    intro memo larger expression later _ _ _ same _
    simp only [joinCommutativity, commuteJoin, Expression.join?_congr same]

/-! ## Associativity -/

/-- Both reassociations of a join over one inner join of its left input. -/
def reassociations (memo : Memo) (outer : Scalar) (last : GroupId)
    (inner : Scalar × GroupId × GroupId) : List RuleResult :=
  let (condition, left, right) := inner
  reassociate outer condition left right last (memo.tablesBelow right) (memo.tablesBelow last) ++
    reassociate outer condition right left last (memo.tablesBelow left) (memo.tablesBelow last)

/-- All reassociations of an expression. -/
def associations (memo : Memo) (expression : Expression) : List RuleResult :=
  match expression.join? with
  | some (.inner, outer, first, last) =>
      ((memo.logicalIn first).filterMap Expression.localInnerJoin?).flatMap
        (reassociations memo outer last)
  | _ => []

theorem reassociateOver_eq (consistent : memo.Consistent) (closed : memo.Closed) {outer : Scalar}
    {last : GroupId} {inner : Scalar × GroupId × GroupId} (left_lt : inner.2.1 < memo.groups.size)
    (right_lt : inner.2.2 < memo.groups.size) :
    reassociateOver memo outer last (memo.tablesBelow last) inner =
      .ok (reassociations memo outer last inner) := by
  rcases inner with ⟨condition, left, right⟩
  rw [reassociateOver, Memo.tableNames_eq consistent closed left_lt,
    Memo.tableNames_eq consistent closed right_lt]
  rfl

theorem mapM_ok {α β : Type} {read : α → Checked β} {value : α → β} {list : List α}
    (read_eq : ∀ x ∈ list, read x = .ok (value x)) : list.mapM read = .ok (list.map value) := by
  induction list with
  | nil => rfl
  | cons x rest ih =>
      rw [List.mapM_cons, read_eq x List.mem_cons_self,
        ih fun y y_mem => read_eq y (List.mem_cons_of_mem x y_mem)]
      rfl

theorem localInnerJoin?_lt (consistent : memo.Consistent) (closed : memo.Closed) {id : GroupId}
    {inner : Scalar × GroupId × GroupId}
    (inner_mem : inner ∈ (memo.logicalIn id).filterMap Expression.localInnerJoin?) :
    inner.2.1 < memo.groups.size ∧ inner.2.2 < memo.groups.size := by
  rcases List.mem_filterMap.mp inner_mem with ⟨input, input_mem, join_eq⟩
  rcases inner with ⟨condition, left, right⟩
  have children_eq := (Expression.localInnerJoin?_eq_some.mp join_eq).2.2
  have exist := Memo.child_lt consistent closed input_mem
  rw [children_eq] at exist
  exact ⟨exist left (by simp), exist right (by simp)⟩

theorem associateJoin_eq (consistent : memo.Consistent) (closed : memo.Closed)
    (stored : memo.expression? expression.id = some expression) :
    associateJoin expression memo = .ok (associations memo expression) := by
  rw [associateJoin]
  split
  · rename_i outer first last join_eq
    have children_eq := (Expression.join?_eq_some.mp join_eq).2
    have first_lt : first < memo.groups.size := closed stored first (by simp [children_eq])
    have last_lt : last < memo.groups.size := closed stored last (by simp [children_eq])
    have mapped : ((memo.logicalIn first).filterMap Expression.localInnerJoin?).mapM
        (reassociateOver memo outer last (memo.tablesBelow last)) =
          .ok (((memo.logicalIn first).filterMap Expression.localInnerJoin?).map
            (reassociations memo outer last)) := by
      refine mapM_ok ?_
      intro inner inner_mem
      have exist := localInnerJoin?_lt consistent closed inner_mem
      exact reassociateOver_eq consistent closed exist.1 exist.2
    rw [associations, join_eq, Memo.tableNames_eq consistent closed last_lt,
      Memo.logicalOf_eq consistent first_lt]
    simp only [bind, Except.bind, mapped, List.flatMap_def]
    rfl
  · rename_i other
    rw [associations]
    split
    · rename_i outer first last join_eq
      exact (other outer first last join_eq).elim
    · rfl

/-- The conjuncts that connect the moved input with the last one go below, if there are any. -/
theorem mem_reassociate {outer inner : Scalar} {stay moved last : GroupId}
    {movedTables lastTables : List String} {result : RuleResult} :
    result ∈ reassociate outer inner stay moved last movedTables lastTables ↔
      outer.conjuncts.filter (connects movedTables lastTables) ≠ [] ∧
        result = .nested (.logical (.join .inner (.canonicalConjunction (inner.conjuncts ++
            outer.conjuncts.filter (not ∘ connects movedTables lastTables)))))
          [.group stay, .fresh (.logical (.join .inner (.canonicalConjunction
            (outer.conjuncts.filter (connects movedTables lastTables))))) [.group moved, .group last]] := by
  rw [reassociate, List.partition_eq_filter_filter]
  dsimp only
  split
  · rename_i none_pushed
    simp [List.isEmpty_iff.mp none_pushed]
  · rename_i some_pushed
    rw [List.mem_singleton]
    exact ⟨fun same => ⟨by simpa using some_pushed, same⟩, And.right⟩

/-- Every association takes an inner join of the left input apart, in one of two ways. -/
theorem of_mem_associations {result : RuleResult} (result_mem : result ∈ associations memo expression) :
    ∃ outer first last inner left right input, expression.join? = some (.inner, outer, first, last) ∧
      input ∈ memo.logicalIn first ∧ input.localInnerJoin? = some (inner, left, right) ∧
        ∃ stay moved, ((stay = left ∧ moved = right) ∨ (stay = right ∧ moved = left)) ∧
          result ∈ reassociate outer inner stay moved last (memo.tablesBelow moved)
            (memo.tablesBelow last) := by
  rw [associations] at result_mem
  split at result_mem
  · rename_i outer first last join_eq
    rcases List.mem_flatMap.mp result_mem with ⟨⟨inner, left, right⟩, inner_mem, result_mem⟩
    rcases List.mem_filterMap.mp inner_mem with ⟨input, input_mem, inner_eq⟩
    rcases List.mem_append.mp result_mem with moves_right | moves_left
    · exact ⟨outer, first, last, inner, left, right, input, join_eq, input_mem, inner_eq, left, right,
        .inl ⟨rfl, rfl⟩, moves_right⟩
    · exact ⟨outer, first, last, inner, left, right, input, join_eq, input_mem, inner_eq, right, left,
        .inr ⟨rfl, rfl⟩, moves_left⟩
  · cases result_mem

theorem associations_grounded (consistent : memo.Consistent) (closed : memo.Closed)
    (stored : memo.expression? expression.id = some expression) :
    ∀ result ∈ associations memo expression,
      result.Grounded memo ∧ ∀ operator ∈ result.operators, operator.isLogical = true := by
  intro result result_mem
  rcases of_mem_associations result_mem with ⟨outer, first, last, inner, left, right, input, join_eq,
    input_mem, inner_eq, stay, moved, parts, result_mem⟩
  have last_lt : last < memo.groups.size :=
    closed stored last (by simp [(Expression.join?_eq_some.mp join_eq).2])
  have exist := Memo.child_lt consistent closed input_mem
  rw [(Expression.localInnerJoin?_eq_some.mp inner_eq).2.2] at exist
  have left_lt := exist left (by simp)
  have right_lt := exist right (by simp)
  have parts_lt : stay < memo.groups.size ∧ moved < memo.groups.size := by
    rcases parts with ⟨rfl, rfl⟩ | ⟨rfl, rfl⟩
    · exact ⟨left_lt, right_lt⟩
    · exact ⟨right_lt, left_lt⟩
  rw [(mem_reassociate.mp result_mem).2]
  refine ⟨⟨parts_lt.1, ⟨parts_lt.2, last_lt, trivial⟩, trivial⟩, ?_⟩
  simp [RuleResult.operators, Subplan.operatorsOf, Subplan.operators, Operator.isLogical]

/-- The joins of an explored group, and the tables of their inputs, are settled. -/
theorem associations_frozen {larger : Memo} {later : Expression} (evolves : memo.Evolves larger)
    (same : later.unmarked = expression.unmarked)
    (explored : ∀ child ∈ expression.children, memo.Reached child .explore) :
    associations larger later = associations memo expression := by
  rw [associations, associations, Expression.join?_congr same]
  split
  · rename_i outer first last join_eq
    have children_eq := (Expression.join?_eq_some.mp join_eq).2
    have first_explored := explored first (by simp [children_eq])
    have last_explored := explored last (by simp [children_eq])
    rw [(evolves.frozen first_explored).filterMap Expression.localInnerJoin?_unmarked]
    refine List.flatMap_congr ?_
    rintro ⟨condition, left, right⟩ inner_mem
    rcases List.mem_filterMap.mp inner_mem with ⟨input, input_mem, inner_eq⟩
    have inputs_eq := (Expression.localInnerJoin?_eq_some.mp inner_eq).2.2
    have inputs_explored := evolves.below first_explored input_mem
    have settled {id : GroupId} (id_explored : memo.Reached id .explore) :=
      Memo.tablesBelow_frozen evolves.extends_ evolves.consistent evolves.below id_explored
    rw [reassociations, reassociations, settled last_explored,
      settled (inputs_explored left (by simp [inputs_eq])),
      settled (inputs_explored right (by simp [inputs_eq]))]
  · rfl

theorem joinAssociativity_steady : joinAssociativity.Steady catalog where
  pattern := ⟨⟨.join, rfl⟩, ⟨⟨.join, rfl⟩, trivial, trivial, trivial⟩, trivial, trivial⟩
  promises := by
    intro memo expression consistent closed stored
    dsimp only [joinAssociativity]
    split
    · rename_i outer left last join_eq
      have children_eq := (Expression.localInnerJoin?_eq_some.mp join_eq).2.2
      rw [Memo.logicalOf_eq consistent (closed stored left (by simp [children_eq]))]
      exact ⟨_, rfl⟩
    · exact ⟨_, rfl⟩
  applies := by
    intro memo expression consistent closed stored
    refine ⟨associations memo expression, ?_, associations_grounded consistent closed stored⟩
    simp only [joinAssociativity, associateJoin_eq consistent closed stored]
    rfl
  promise_frozen := by
    intro memo larger expression later evolves _ _ same explored
    dsimp only [joinAssociativity]
    rw [Expression.localInnerJoin?_congr same]
    split
    · rename_i outer left last join_eq
      have children_eq := (Expression.localInnerJoin?_eq_some.mp join_eq).2.2
      have left_explored := explored left (by simp [children_eq])
      rw [evolves.logicalOf_eq left_explored, evolves.larger_logicalOf_eq left_explored]
      simp only [bind, Except.bind]
      rw [(evolves.frozen left_explored).any fun _ => rfl]
    · rfl
  apply_frozen := by
    intro memo larger expression later evolves stored later_stored same explored
    simp only [joinAssociativity, associateJoin_eq evolves.consistent evolves.closed stored,
      associateJoin_eq evolves.larger_consistent evolves.larger_closed later_stored,
      associations_frozen evolves same explored]

/-! ## Pushing predicates down -/

/-- The joins under a filter with the predicate of the filter. -/
def filteredJoins (memo : Memo) (expression : Expression) : List RuleResult :=
  match expression.operator, expression.children with
  | .logical (.filter predicate), input :: _ =>
      (memo.logicalIn input).filterMap (filterJoin predicate)
  | _, _ => []

theorem pushPredicate_eq (consistent : memo.Consistent) (closed : memo.Closed)
    (stored : memo.expression? expression.id = some expression) :
    pushPredicate expression memo = .ok (filteredJoins memo expression) := by
  rw [pushPredicate]
  split
  · rename_i predicate input others operator_eq children_eq
    rw [filteredJoins, operator_eq, children_eq,
      Memo.logicalOf_eq consistent (closed stored input (by simp [children_eq]))]
    rfl
  · rename_i other
    rw [filteredJoins]
    split
    · rename_i predicate input others operator_eq children_eq
      exact (other predicate input others operator_eq children_eq).elim
    · rfl

theorem of_mem_filteredJoins {result : RuleResult}
    (result_mem : result ∈ filteredJoins memo expression) :
    ∃ predicate input others joined type condition left right,
      expression.operator = .logical (.filter predicate) ∧ expression.children = input :: others ∧
        joined ∈ memo.logicalIn input ∧ joined.join? = some (type, condition, left, right) ∧
          type.isSymmetric = true ∧ result = .substitution
            (.logical (.join .inner (mergeConditions condition predicate))) [left, right] := by
  rw [filteredJoins] at result_mem
  split at result_mem
  · rename_i predicate input others operator_eq children_eq
    rcases List.mem_filterMap.mp result_mem with ⟨joined, joined_mem, made⟩
    rw [filterJoin] at made
    split at made
    · rename_i type condition left right join_eq
      split at made
      · rename_i symmetric
        cases made
        exact ⟨predicate, input, others, joined, type, condition, left, right, operator_eq,
          children_eq, joined_mem, join_eq, symmetric, rfl⟩
      · cases made
    · cases made
  · cases result_mem

theorem filteredJoins_grounded (consistent : memo.Consistent) (closed : memo.Closed) :
    ∀ result ∈ filteredJoins memo expression,
      result.Grounded memo ∧ ∀ operator ∈ result.operators, operator.isLogical = true := by
  intro result result_mem
  rcases of_mem_filteredJoins result_mem with
    ⟨predicate, input, others, joined, type, condition, left, right, -, -, joined_mem, join_eq, -, rfl⟩
  have exist := Memo.child_lt consistent closed joined_mem
  rw [(Expression.join?_eq_some.mp join_eq).2] at exist
  exact ⟨exist, by simp [RuleResult.operators, Operator.isLogical]⟩

theorem filteredJoins_frozen {larger : Memo} {later : Expression} (evolves : memo.Evolves larger)
    (same : later.unmarked = expression.unmarked)
    (explored : ∀ child ∈ expression.children, memo.Reached child .explore) :
    filteredJoins larger later = filteredJoins memo expression := by
  rcases Expression.unmarked_eq_iff.mp same with ⟨-, -, operator_eq, children_eq, -⟩
  rw [filteredJoins, filteredJoins, operator_eq, children_eq]
  split
  · rename_i predicate input others _ inputs_eq
    rw [(evolves.frozen (explored input (by simp [inputs_eq]))).filterMap fun _ => rfl]
  · rfl

theorem predicatePushdown_steady : predicatePushdown.Steady catalog where
  pattern := ⟨⟨.filter, rfl⟩, ⟨⟨.join, rfl⟩, trivial, trivial, trivial⟩, trivial⟩
  promises := by
    intro memo expression _ _ _
    dsimp only [predicatePushdown]
    split
    · exact ⟨_, rfl⟩
    · exact ⟨_, rfl⟩
  applies := by
    intro memo expression consistent closed stored
    refine ⟨filteredJoins memo expression, ?_, filteredJoins_grounded consistent closed⟩
    simp only [predicatePushdown, pushPredicate_eq consistent closed stored]
    rfl
  promise_frozen := by
    intro memo larger expression later _ _ _ same _
    rcases Expression.unmarked_eq_iff.mp same with ⟨-, -, operator_eq, -⟩
    simp only [predicatePushdown, operator_eq]
  apply_frozen := by
    intro memo larger expression later evolves stored later_stored same explored
    simp only [predicatePushdown, pushPredicate_eq evolves.consistent evolves.closed stored,
      pushPredicate_eq evolves.larger_consistent evolves.larger_closed later_stored,
      filteredJoins_frozen evolves same explored]

/-! ## Pushing projections down -/

/-- The projection of an expression over scans of only the columns that it uses. -/
def projectedScans (memo : Memo) (expression : Expression) : List RuleResult :=
  match expression.operator, expression.children with
  | .logical (.project scalars _), input :: _ =>
      if (neededColumns scalars).isEmpty then []
      else (memo.logicalIn input).filterMap
        (projectScan expression.operator (neededColumns scalars))
  | _, _ => []

theorem pushProjection_eq (consistent : memo.Consistent) (closed : memo.Closed)
    (stored : memo.expression? expression.id = some expression) :
    pushProjection expression memo = .ok (projectedScans memo expression) := by
  rw [pushProjection]
  split
  · rename_i scalars aliases input others operator_eq children_eq
    rw [projectedScans, operator_eq, children_eq,
      Memo.logicalOf_eq consistent (closed stored input (by simp [children_eq]))]
    dsimp only
    split
    · rfl
    · rfl
  · rename_i other
    rw [projectedScans]
    split
    · rename_i scalars aliases input others operator_eq children_eq
      exact (other scalars aliases input others operator_eq children_eq).elim
    · rfl

theorem of_mem_projectedScans {result : RuleResult}
    (result_mem : result ∈ projectedScans memo expression) :
    ∃ scalars aliases input others scan table columns predicate,
      expression.operator = .logical (.project scalars aliases) ∧
        expression.children = input :: others ∧ scan ∈ memo.logicalIn input ∧
          scan.operator = .logical (.scan table columns predicate) ∧
            result = .nested expression.operator
              [.fresh (.logical (.scan table (neededColumns scalars) predicate)) []] := by
  rw [projectedScans] at result_mem
  split at result_mem
  · rename_i scalars aliases input others operator_eq children_eq
    split at result_mem
    · cases result_mem
    · rcases List.mem_filterMap.mp result_mem with ⟨scan, scan_mem, made⟩
      rw [projectScan] at made
      split at made
      · rename_i table columns predicate scan_eq
        split at made
        · cases made
        · cases made
          exact ⟨scalars, aliases, input, others, scan, table, columns, predicate, operator_eq,
            children_eq, scan_mem, scan_eq, rfl⟩
      · cases made
  · cases result_mem

theorem projectedScans_grounded : ∀ result ∈ projectedScans memo expression,
    result.Grounded memo ∧ ∀ operator ∈ result.operators, operator.isLogical = true := by
  intro result result_mem
  rcases of_mem_projectedScans result_mem with
    ⟨scalars, aliases, input, others, scan, table, columns, predicate, operator_eq, -, -, -, rfl⟩
  exact ⟨⟨trivial, trivial⟩, by simp [RuleResult.operators, Subplan.operatorsOf,
    Subplan.operators, Operator.isLogical, operator_eq]⟩

theorem projectedScans_frozen {larger : Memo} {later : Expression} (evolves : memo.Evolves larger)
    (same : later.unmarked = expression.unmarked)
    (explored : ∀ child ∈ expression.children, memo.Reached child .explore) :
    projectedScans larger later = projectedScans memo expression := by
  rcases Expression.unmarked_eq_iff.mp same with ⟨-, -, operator_eq, children_eq, -⟩
  rw [projectedScans, projectedScans, operator_eq, children_eq]
  split
  · rename_i scalars aliases input others _ inputs_eq
    rw [(evolves.frozen (explored input (by simp [inputs_eq]))).filterMap fun _ => rfl]
  · rfl

theorem projectionPushdown_steady : projectionPushdown.Steady catalog where
  pattern := ⟨⟨.project, rfl⟩, ⟨⟨.scan, rfl⟩, trivial⟩, trivial⟩
  promises := by
    intro memo expression consistent closed stored
    dsimp only [projectionPushdown]
    split
    · rename_i scalars aliases input others operator_eq children_eq
      rw [Memo.logicalOf_eq consistent (closed stored input (by simp [children_eq]))]
      split
      · exact ⟨_, rfl⟩
      · exact ⟨_, rfl⟩
    · exact ⟨_, rfl⟩
  applies := by
    intro memo expression consistent closed stored
    refine ⟨projectedScans memo expression, ?_, projectedScans_grounded⟩
    simp only [projectionPushdown, pushProjection_eq consistent closed stored]
    rfl
  promise_frozen := by
    intro memo larger expression later evolves _ _ same explored
    rcases Expression.unmarked_eq_iff.mp same with ⟨-, -, operator_eq, children_eq, -⟩
    dsimp only [projectionPushdown]
    rw [operator_eq, children_eq]
    split
    · rename_i scalars aliases input others _ inputs_eq
      have input_explored := explored input (by simp [inputs_eq])
      rw [evolves.logicalOf_eq input_explored, evolves.larger_logicalOf_eq input_explored]
      simp only [bind, Except.bind]
      rw [(evolves.frozen input_explored).any fun _ => rfl]
    · rfl
  apply_frozen := by
    intro memo larger expression later evolves stored later_stored same explored
    simp only [projectionPushdown, pushProjection_eq evolves.consistent evolves.closed stored,
      pushProjection_eq evolves.larger_consistent evolves.larger_closed later_stored,
      projectedScans_frozen evolves same explored]

end Rules

end Cascades
