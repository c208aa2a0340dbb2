import Cascades.Proofs.Meaning.Denotation
import Cascades.Proofs.Meaning.Interpretation
import Cascades.Proofs.Rules.Outcomes

/-!
# Rewrites of joins and filters preserve meaning

Exchanging the inputs of a join, turning two joins and moving the predicate of a filter to the join below
it give expressions that denote the same bag. The inputs of a join have no tables in common, so that the
product of bags is commutative here as well as associative; and all that happens to conditions is that
their conjuncts are put together anew.

When two joins are turned, the condition of the inner one is lifted over the last input. This is the one
place where a rewrite relies on the scope of columns: if an inner join mentions a table which is scanned
in the last input only, then its condition cannot be true where it stands, but may be true above.
-/

namespace Cascades

section Meaning

variable {Value : Type} {semantics : Semantics Value} {bags : GroupId → Bag Value} {memo : Memo}
  {group : GroupId} {expression : Expression} {result : RuleResult}

/-- Every result of a rule denotes the same bag as the expression that it was applied to. -/
def Rule.Preserves (rule : Rule) (semantics : Semantics Value) (bags : GroupId → Bag Value) (memo : Memo)
    (catalog : Catalog) (expression : Expression) : Prop :=
  ∀ results, rule.apply expression memo catalog = .ok (.results results) →
    ∀ result ∈ results, semantics.ofResult bags result = semantics.ofExpression bags expression

namespace Semantics

section Joins

variable {stay moved last : Bag Value} {stayTables movedTables lastTables : List String}

/-- The inputs of a join may be exchanged if no table has columns in both. -/
theorem join_comm {condition : Scalar} (stay_within : stay.Within stayTables)
    (moved_within : moved.Within movedTables) (disjoint : stayTables.Disjoint movedTables) :
    semantics.join condition moved stay = semantics.join condition stay moved := by
  rw [join, join, Bag.product_comm stay_within moved_within disjoint]

theorem join_within {condition : Scalar} (stay_within : stay.Within stayTables)
    (moved_within : moved.Within movedTables) :
    (semantics.join condition stay moved).Within (stayTables ++ movedTables) :=
  ((stay_within.mono (List.subset_append_left _ _)).product
    (moved_within.mono (List.subset_append_right _ _))).filter _

/-- A condition that mentions no table of the second row is true of the merged row if it is of the first. -/
theorem keeps_merge {condition : Scalar} (local_ : condition.hasOuterRefs = false)
    (qualified : condition.Qualified) (apart : condition.tables.Disjoint lastTables)
    {row other : Row Value} (other_within : other.Within lastTables) :
    semantics.keeps condition (row.merge other) = semantics.keeps condition row := by
  rw [← ScalarSemantics.holds_eq_keeps, ← ScalarSemantics.holds_eq_keeps]
  refine ScalarSemantics.holds_congr local_ qualified fun table table_mem => ?_
  exact Row.merge_of_notMem_right other_within fun last_mem => apart table_mem last_mem

/-- A conjunct that connects two inputs does not look at a row of the third one. -/
theorem holds_merge_of_connects {conjunct : Scalar} (local_ : conjunct.hasOuterRefs = false)
    (qualified : conjunct.Qualified) (connects : Rules.connects movedTables lastTables conjunct = true)
    (moved_apart : stayTables.Disjoint movedTables) (last_apart : stayTables.Disjoint lastTables)
    {row other : Row Value} (row_within : row.Within stayTables) :
    semantics.holds conjunct (row.merge other) = semantics.holds conjunct other := by
  refine ScalarSemantics.holds_congr local_ qualified fun table table_mem => ?_
  refine Row.merge_of_notMem_left row_within fun stay_mem => ?_
  simp only [Rules.connects, Bool.and_eq_true, List.all_eq_true, Bool.or_eq_true,
    List.contains_iff_mem] at connects
  rcases connects.1.1 table table_mem with moved_mem | last_mem
  · exact moved_apart stay_mem moved_mem
  · exact last_apart stay_mem last_mem

/-- A join whose right input is a join keeps the rows of the product that both conditions keep. -/
theorem join_join_right {above below : Scalar} (unseen : ∀ left ∈ stay, ∀ right ∈ moved.product last,
      semantics.keeps below (left.merge right) = semantics.keeps below right) :
    semantics.join above stay (semantics.join below moved last) =
      Multiset.filter (fun row => semantics.keeps above row ∧ semantics.keeps below row)
        (stay.product (moved.product last)) := by
  rw [join, join, Bag.product_filter_right fun row => semantics.keeps below row = true,
    Multiset.filter_filter]
  intro left left_mem right right_mem
  rw [unseen left left_mem right right_mem]

/-- A join whose left input is a join keeps the rows of the product that both conditions keep. -/
theorem join_join_left {above below : Scalar} (unseen : ∀ left ∈ stay.product moved, ∀ right ∈ last,
      semantics.keeps below (left.merge right) = semantics.keeps below left) :
    semantics.join above (semantics.join below stay moved) last =
      Multiset.filter (fun row => semantics.keeps above row ∧ semantics.keeps below row)
        (stay.product (moved.product last)) := by
  rw [join, join, Bag.product_filter_left fun row => semantics.keeps below row = true,
    Bag.product_assoc, Multiset.filter_filter]
  intro left left_mem right right_mem
  rw [unseen left left_mem right right_mem]

/-- Moving the conjuncts that connect the moved input with the last one keeps the same rows. -/
theorem join_reassociate {outer inner : Scalar} (outer_local : outer.hasOuterRefs = false)
    (outer_qualified : outer.Qualified) (inner_local : inner.hasOuterRefs = false)
    (inner_qualified : inner.Qualified) (inner_apart : inner.tables.Disjoint lastTables)
    (stay_within : stay.Within stayTables) (last_within : last.Within lastTables)
    (moved_apart : stayTables.Disjoint movedTables) (last_apart : stayTables.Disjoint lastTables) :
    semantics.join (.canonicalConjunction (inner.conjuncts ++
        outer.conjuncts.filter (not ∘ Rules.connects movedTables lastTables))) stay
      (semantics.join (.canonicalConjunction
        (outer.conjuncts.filter (Rules.connects movedTables lastTables))) moved last) =
      semantics.join outer (semantics.join inner stay moved) last := by
  rw [join_join_right, join_join_left]
  · refine Multiset.filter_congr fun row _ => ?_
    rw [ScalarSemantics.keeps_canonicalConjunction, ScalarSemantics.keeps_canonicalConjunction,
      ScalarSemantics.keeps_iff, ScalarSemantics.keeps_iff]
    constructor
    · rintro ⟨above, below⟩
      refine ⟨fun conjunct conjunct_mem => ?_, fun conjunct conjunct_mem => ?_⟩
      · by_cases connects : Rules.connects movedTables lastTables conjunct = true
        · exact below conjunct (List.mem_filter.mpr ⟨conjunct_mem, connects⟩)
        · refine above conjunct (List.mem_append_right _ (List.mem_filter.mpr ⟨conjunct_mem, ?_⟩))
          simpa using connects
      · exact above conjunct (List.mem_append_left _ conjunct_mem)
    · rintro ⟨outer_holds, inner_holds⟩
      refine ⟨fun conjunct conjunct_mem => ?_, fun conjunct conjunct_mem => ?_⟩
      · rcases List.mem_append.mp conjunct_mem with inner_mem | kept_mem
        · exact inner_holds conjunct inner_mem
        · exact outer_holds conjunct (List.mem_of_mem_filter kept_mem)
      · exact outer_holds conjunct (List.mem_of_mem_filter conjunct_mem)
  · intro left _ right right_mem
    exact keeps_merge inner_local inner_qualified inner_apart (last_within right right_mem)
  · intro left left_mem right _
    rw [Bool.eq_iff_iff, ScalarSemantics.keeps_canonicalConjunction,
      ScalarSemantics.keeps_canonicalConjunction]
    refine forall₂_congr fun conjunct conjunct_mem => ?_
    rcases List.mem_filter.mp conjunct_mem with ⟨outer_mem, connects⟩
    rw [holds_merge_of_connects (Scalar.hasOuterRefs_of_mem_conjuncts outer_mem outer_local)
      (outer_qualified.of_mem_conjuncts outer_mem) connects moved_apart last_apart
      (stay_within left left_mem)]

/-- A predicate may be tested by a join instead of by a filter above it. -/
theorem join_mergeConditions {condition predicate : Scalar} :
    semantics.join (Rules.mergeConditions condition predicate) stay moved =
      semantics.filter predicate (semantics.join condition stay moved) := by
  rw [join, filter, join, Multiset.filter_filter]
  refine Multiset.filter_congr fun row _ => ?_
  rw [Rules.mergeConditions, ScalarSemantics.keeps_canonicalConjunction,
    ScalarSemantics.holds_eq_keeps, ScalarSemantics.keeps_iff, ScalarSemantics.keeps_iff]
  constructor
  · intro all
    refine ⟨fun conjunct conjunct_mem => all conjunct (List.mem_append_right _ conjunct_mem),
      fun conjunct conjunct_mem => ?_⟩
    by_cases trivial_ : conjunct.same .truth = true
    · rw [ScalarSemantics.holds, semantics.value_same trivial_]
      exact semantics.isTrue_truth row
    · exact all conjunct (List.mem_append_left _ (List.mem_filter.mpr ⟨conjunct_mem, by simpa using trivial_⟩))
  · rintro ⟨predicate_holds, condition_holds⟩ conjunct conjunct_mem
    rcases List.mem_append.mp conjunct_mem with condition_mem | predicate_mem
    · exact condition_holds conjunct (List.mem_of_mem_filter condition_mem)
    · exact predicate_holds conjunct predicate_mem

end Joins

end Semantics

section Rewrites

variable (denotes : memo.Denotes semantics bags) (apart : memo.Apart)
  (expression_mem : expression ∈ memo.logicalIn group)
include denotes expression_mem

include apart in
theorem Rules.ofResult_commuteJoin (result_mem : result ∈ commuteJoin expression) :
    semantics.ofResult bags result = semantics.ofExpression bags expression := by
  rcases mem_commuteJoin.mp result_mem with ⟨type, condition, left, right, join_eq, symmetric, rfl⟩
  rw [Semantics.ofExpression_join join_eq symmetric]
  exact (Semantics.apply_join symmetric).trans (Semantics.join_comm (denotes.within left)
    (denotes.within right) (apart.of_join expression_mem join_eq))

include apart in
theorem Rules.ofResult_associations (qualified : memo.Qualified) (inScope : memo.Scoped expression)
    (local_ : expression.localInnerJoin?.isSome) (result_mem : result ∈ associations memo expression) :
    semantics.ofResult bags result = semantics.ofExpression bags expression := by
  rcases of_mem_associations result_mem with ⟨outer, first, last, inner, left, right, input, join_eq,
    input_mem, inner_eq, stay, moved, parts, result_mem⟩
  have outer_local : outer.hasOuterRefs = false := by
    by_contra correlated
    simp [Expression.localInnerJoin?, join_eq, correlated] at local_
  rcases Expression.localInnerJoin?_eq_some.mp inner_eq with ⟨operator_eq, inner_local, children_eq⟩
  have input_eq : input.join? = some (.inner, inner, left, right) :=
    Expression.join?_eq_some.mpr ⟨operator_eq, children_eq⟩
  have inputs_apart := apart.of_join input_mem input_eq
  have last_apart := apart.of_join expression_mem join_eq
  rcases Memo.tablesBelow_join input_mem input_eq with ⟨left_below, right_below⟩
  -- whichever input stays, the inner join denotes the join of the one that stays with the other one
  have turned : (memo.tablesBelow stay).Disjoint (memo.tablesBelow moved) ∧
      (memo.tablesBelow stay).Disjoint (memo.tablesBelow last) ∧
        bags first = semantics.join inner (bags stay) (bags moved) := by
    have first_eq := (denotes.denotes input_mem).symm.trans (Semantics.ofExpression_join input_eq rfl)
    rcases parts with ⟨rfl, rfl⟩ | ⟨rfl, rfl⟩
    · exact ⟨inputs_apart, fun table stay_mem => last_apart (left_below stay_mem), first_eq⟩
    · refine ⟨inputs_apart.symm, fun table stay_mem => last_apart (right_below stay_mem), ?_⟩
      rw [first_eq]
      exact Semantics.join_comm (denotes.within stay) (denotes.within moved) inputs_apart.symm
  rcases turned with ⟨moved_apart, stay_apart, first_eq⟩
  rw [Semantics.ofExpression_join join_eq rfl, first_eq, (mem_reassociate.mp result_mem).2]
  exact Semantics.join_reassociate outer_local (qualified.of_join expression_mem join_eq) inner_local
    (qualified.of_join input_mem input_eq) (inScope join_eq input_mem inner_eq)
    (denotes.within stay) (denotes.within last) moved_apart stay_apart

omit expression_mem in
theorem Rules.ofResult_filteredJoins (result_mem : result ∈ filteredJoins memo expression) :
    semantics.ofResult bags result = semantics.ofExpression bags expression := by
  rcases of_mem_filteredJoins result_mem with ⟨predicate, input, others, joined, type, condition, left,
    right, operator_eq, children_eq, joined_mem, join_eq, symmetric, rfl⟩
  have input_eq := (denotes.denotes joined_mem).symm.trans (Semantics.ofExpression_join join_eq symmetric)
  rw [Semantics.ofExpression, operator_eq, children_eq]
  exact Semantics.join_mergeConditions.trans (congrArg (semantics.filter predicate) input_eq.symm)

end Rewrites

namespace Rules

/--
In a memo whose groups denote bags, the push of a predicate never changes what an expression denotes.
Where no table is scanned below both inputs of a join, commutativity does not either. Nor does
associativity, if it is promised there, unless a column is not qualified or the condition of an inner join
mentions a table that is only joined by the outer one. None of them fails in a memo without dangling
references.
-/
theorem rewrites_preserve_meaning (denotes : memo.Denotes semantics bags)
    (expression_mem : expression ∈ memo.logicalIn group) (catalog : Catalog) :
    (memo.Apart → joinCommutativity.Preserves semantics bags memo catalog expression) ∧
      (memo.Apart → memo.Qualified → memo.Scoped expression →
        joinAssociativity.promise expression memo catalog ≠ .ok .none →
          joinAssociativity.Preserves semantics bags memo catalog expression) ∧
      predicatePushdown.Preserves semantics bags memo catalog expression ∧
      (memo.Consistent → memo.Closed → ∀ rule ∈ [joinCommutativity, joinAssociativity, predicatePushdown],
        ∃ results, rule.apply expression memo catalog = .ok (.results results)) := by
  refine ⟨?_, ?_, ?_, ?_⟩
  · intro apart results applied result result_mem
    cases applied
    exact ofResult_commuteJoin denotes apart expression_mem result_mem
  · intro apart qualified inScope promised results applied result result_mem
    have local_ : expression.localInnerJoin?.isSome := by
      by_contra correlated
      refine promised ?_
      simp only [joinAssociativity, Option.not_isSome_iff_eq_none.mp correlated]
      rfl
    cases made : associateJoin expression memo with
    | error dangling =>
        simp only [joinAssociativity, made, bind, Except.bind] at applied
        cases applied
    | ok others =>
        simp only [joinAssociativity, made, bind, Except.bind] at applied
        cases applied
        rw [eq_associations made] at result_mem
        exact ofResult_associations denotes apart expression_mem qualified inScope local_ result_mem
  · intro results applied result result_mem
    cases made : pushPredicate expression memo with
    | error dangling =>
        simp only [predicatePushdown, made, bind, Except.bind] at applied
        cases applied
    | ok others =>
        simp only [predicatePushdown, made, bind, Except.bind] at applied
        cases applied
        rw [eq_filteredJoins made] at result_mem
        exact ofResult_filteredJoins denotes result_mem
  · intro consistent closed rule rule_mem
    have stored := ((Memo.mem_logicalIn consistent).mp expression_mem).1
    have steady : rule.Steady catalog := by
      simp only [List.mem_cons, List.not_mem_nil, or_false] at rule_mem
      rcases rule_mem with rfl | rfl | rfl
      · exact joinCommutativity_steady
      · exact joinAssociativity_steady
      · exact predicatePushdown_steady
    rcases steady.applies consistent closed stored with ⟨results, applied, -⟩
    exact ⟨results, applied⟩

end Rules

end Meaning

/-! ## A join over a join -/

namespace Nested

/-- The join of `a` and `b`, on a column of `a` and of some table, and its join with `c`. -/
def memo (mentioned : String) : Memo :=
  let scan (name : String) : Operator := .logical (.scan ⟨"public", name⟩ [] none)
  let join (condition : Scalar) : Operator := .logical (.join .inner condition)
  let add (memo : Memo) (operator : Operator) (children : List GroupId) : Memo :=
    (memo.add operator children none).1
  let scans := add (add (add .empty (scan "a") []) (scan "b") []) (scan "c") []
  let joined := add scans (join (.equality "a" "x" mentioned "x")) [0, 1]
  add joined (join (.equality "b" "y" "c" "y")) [3, 2]

/-- The join with `c`. -/
def outer : Expression :=
  ⟨4, 4, .logical (.join .inner (.equality "b" "y" "c" "y")), [3, 2], none, .empty⟩

/-- The join of `a` with the join of `b` and `c`. -/
def turned (mentioned : String) : RuleResult :=
  .nested (.logical (.join .inner (.equality "a" "x" mentioned "x")))
    [.group 0, .fresh (.logical (.join .inner (.equality "b" "y" "c" "y"))) [.group 1, .group 2]]

/-- One row with the columns of one table, all of which are one. -/
def oneRow (name : String) : Bag (Option Int) :=
  {fun table _ => if table = name then some (some 1) else none}

/-- Every table has one row. -/
def ones : Semantics (Option Int) where
  toScalarSemantics := Interpretation.integers.scalars
  others
    | .logical (.scan table _ _), _ => oneRow table.name
    | _, _ => 0

/-- What the groups denote: the rows of the tables, of the inner join and of the outer one. -/
def bags (mentioned : String) : GroupId → Bag (Option Int) :=
  let joined := ones.join (.equality "a" "x" mentioned "x") (oneRow "a") (oneRow "b")
  fun group => ([oneRow "a", oneRow "b", oneRow "c", joined,
    ones.join (.equality "b" "y" "c" "y") joined (oneRow "c")][group]?).getD 0

variable {mentioned : String} {group : GroupId} {expression : Expression}

theorem of_mem_logicalIn (expression_mem : expression ∈ (memo mentioned).logicalIn group) :
    (∃ name, (group, name) ∈ [(0, "a"), (1, "b"), (2, "c")] ∧
      expression = ⟨group, group, .logical (.scan ⟨"public", name⟩ [] none), [], none, .empty⟩) ∨
    (group = 3 ∧ expression = ⟨3, 3, .logical (.join .inner (.equality "a" "x" mentioned "x")), [0, 1],
      none, .empty⟩) ∨
    (group = 4 ∧ expression = outer) := by
  rcases group with _ | _ | _ | _ | _ | group
  · exact .inl ⟨"a", by simp, List.mem_singleton.mp expression_mem⟩
  · exact .inl ⟨"b", by simp, List.mem_singleton.mp expression_mem⟩
  · exact .inl ⟨"c", by simp, List.mem_singleton.mp expression_mem⟩
  · exact .inr (.inl ⟨rfl, List.mem_singleton.mp expression_mem⟩)
  · exact .inr (.inr ⟨rfl, List.mem_singleton.mp expression_mem⟩)
  · rw [Memo.logicalIn_eq_nil (Nat.le_add_left 5 group)] at expression_mem
    cases expression_mem

theorem tablesBelow_eq : ∀ mentioned ∈ ["b", "c"],
    (memo mentioned).tablesBelow 0 = ["a"] ∧ (memo mentioned).tablesBelow 1 = ["b"] ∧
      (memo mentioned).tablesBelow 2 = ["c"] ∧ (memo mentioned).tablesBelow 3 = ["a", "b"] ∧
        (memo mentioned).tablesBelow 4 = ["c", "a", "b"] := by
  decide +kernel

theorem oneRow_within (name : String) : (oneRow name).Within [name] := by
  intro row row_mem table column found
  obtain rfl := Multiset.mem_singleton.mp row_mem
  by_contra other
  simp_all

theorem denotes (mentioned_mem : mentioned ∈ ["b", "c"]) :
    (memo mentioned).Denotes ones (bags mentioned) where
  denotes := by
    intro group expression expression_mem
    rcases of_mem_logicalIn expression_mem with ⟨name, name_mem, rfl⟩ | ⟨rfl, rfl⟩ | ⟨rfl, rfl⟩
    · simp only [List.mem_cons, Prod.mk.injEq, List.not_mem_nil, or_false] at name_mem
      rcases name_mem with ⟨rfl, rfl⟩ | ⟨rfl, rfl⟩ | ⟨rfl, rfl⟩ <;> rfl
    · rfl
    · rfl
  within := by
    rcases tablesBelow_eq mentioned mentioned_mem with ⟨a_eq, b_eq, c_eq, inner_eq, outer_eq⟩
    have inner_within : (bags mentioned 3).Within ["a", "b"] :=
      Semantics.join_within (oneRow_within "a") (oneRow_within "b")
    intro group
    rcases group with _ | _ | _ | _ | _ | group
    · exact a_eq ▸ oneRow_within "a"
    · exact b_eq ▸ oneRow_within "b"
    · exact c_eq ▸ oneRow_within "c"
    · exact inner_eq ▸ inner_within
    · rw [outer_eq]
      exact (Semantics.join_within inner_within (oneRow_within "c")).mono (by simp)
    · exact fun row row_mem => absurd row_mem (Multiset.notMem_zero row)

theorem qualified : (memo mentioned).Qualified := by
  intro group expression expression_mem
  rcases of_mem_logicalIn expression_mem with ⟨name, name_mem, rfl⟩ | ⟨rfl, rfl⟩ | ⟨rfl, rfl⟩ <;>
    simp [outer, Operator.scalars, LogicalOperator.scalars, Scalar.Qualified, Scalar.equality,
      Scalar.columns, ColumnRef.qualified]

theorem apart (mentioned_mem : mentioned ∈ ["b", "c"]) : (memo mentioned).Apart := by
  rcases tablesBelow_eq mentioned mentioned_mem with ⟨a_eq, b_eq, c_eq, inner_eq, outer_eq⟩
  intro group expression expression_mem isJoin
  rcases of_mem_logicalIn expression_mem with ⟨name, name_mem, rfl⟩ | ⟨rfl, rfl⟩ | ⟨rfl, rfl⟩
  · cases isJoin
  · simp [a_eq, b_eq]
  · simp [outer, inner_eq, c_eq]

theorem inScope : (memo "b").Scoped outer := by
  intro above left right join_eq input below first second input_mem inner_eq
  cases join_eq
  obtain rfl := List.mem_singleton.mp input_mem
  cases inner_eq
  have inner_apart : List.Disjoint ["a", "b"] ["c"] := by simp
  rw [(tablesBelow_eq "b" (by simp)).2.2.1]
  exact inner_apart

/-- The inputs of the outer join are exchanged or the joins are turned, and the only row is still there. -/
theorem rewrites_preserve_row :
    Rules.joinCommutativity.Preserves ones (bags "b") (memo "b") .empty outer ∧
      Rules.joinAssociativity.apply outer (memo "b") .empty = .ok (.results [turned "b"]) ∧
      ones.ofResult (bags "b") (turned "b") = ones.ofExpression (bags "b") outer ∧
      Multiset.card (ones.ofExpression (bags "b") outer) = 1 := by
  have applied : Rules.joinAssociativity.apply outer (memo "b") .empty = .ok (.results [turned "b"]) := rfl
  have promised : Rules.joinAssociativity.promise outer (memo "b") .empty ≠ .ok .none := by
    intro none_eq
    cases none_eq
  have outer_mem : outer ∈ (memo "b").logicalIn 4 := List.mem_singleton_self outer
  have separate : (memo "b").Apart := apart (by simp)
  rcases Rules.rewrites_preserve_meaning (denotes (by simp)) outer_mem .empty with ⟨exchanged, associated, -⟩
  exact ⟨exchanged separate, applied,
    associated separate qualified inScope promised _ applied _ (List.mem_singleton_self _),
    by decide +kernel⟩

/--
If the inner join mentions the third table instead, then its condition is true of no row where it stands,
and true of a row after the joins are turned.
-/
theorem rewrite_adds_row : (memo "c").Denotes ones (bags "c") ∧ (memo "c").Qualified ∧ (memo "c").Apart ∧
    outer ∈ (memo "c").logicalIn 4 ∧
      Rules.joinAssociativity.promise outer (memo "c") .empty = .ok .medium ∧
        ¬ Rules.joinAssociativity.Preserves ones (bags "c") (memo "c") .empty outer := by
  refine ⟨denotes (by simp), qualified, apart (by simp), List.mem_singleton_self outer, rfl, ?_⟩
  intro preserves
  have same := preserves [turned "c"] rfl (turned "c") (List.mem_singleton_self _)
  have none_before : Multiset.card (ones.ofExpression (bags "c") outer) = 0 := by decide +kernel
  have one_after : Multiset.card (ones.ofResult (bags "c") (turned "c")) = 1 := by decide +kernel
  rw [same, none_before] at one_after
  cases one_after

end Nested

end Cascades
