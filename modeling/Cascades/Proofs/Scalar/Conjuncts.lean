import Cascades.Proofs.Memo.Insertions

/-!
# When the order of conjuncts does not matter

The canonical conjunction sorts its conjuncts by their texts and drops a conjunct that is the same as
its neighbour. Expressions of one text keep the order in which they are given, and equal numbers may
have different texts, so what results depends on the order of the conjuncts unless no expression
comes, by its text, between two that are the same and different from it. Up to the bits of equal
numbers, that is the exact condition.
-/

namespace Cascades

namespace Scalar

/-- Of these expressions, none has a text between those of two others that are the same. -/
def Separated (scalars : List Scalar) : Prop :=
  ∀ first ∈ scalars, ∀ last ∈ scalars, first.same last = true → ∀ between ∈ scalars,
    Text.le first.text between.text = true → Text.le between.text last.text = true →
      between.same first = true

/-- Two lists of the same expressions, in any order and any number. -/
def SameElements (scalars others : List Scalar) : Prop :=
  ∀ scalar, (∃ first ∈ scalars, first.same scalar = true) ↔
    ∃ second ∈ others, second.same scalar = true

theorem mem_map_normal {scalars : List Scalar} {scalar : Scalar} :
    scalar.normal ∈ scalars.map normal ↔ ∃ first ∈ scalars, first.same scalar = true := by
  simp only [List.mem_map, same_iff]

theorem same_conjunction {scalars others : List Scalar}
    (normals : scalars.map normal = others.map normal) :
    (conjunction scalars).same (conjunction others) = true := by
  rw [same_iff]
  rcases scalars with _ | ⟨first, _ | ⟨second, rest⟩⟩ <;>
    rcases others with _ | ⟨first', _ | ⟨second', rest'⟩⟩ <;>
      simp_all [conjunction, normal, normals_eq_map]

namespace Separated

variable {scalars others pool : List Scalar}

theorem subset (separated : Separated pool) (subset : scalars ⊆ pool) : Separated scalars :=
  fun _ first_mem _ last_mem same _ between_mem => separated _ (subset first_mem) _
    (subset last_mem) same _ (subset between_mem)

/-- In the order of their texts, the same expressions would be neighbours. -/
theorem nodup_normals (separated : Separated scalars) (sorted : Sorted scalars)
    (distinct : Distinct scalars) : (scalars.map normal).Nodup := by
  induction scalars with
  | nil => exact List.nodup_nil
  | cons first rest ih =>
      have ⟨first_le, rest_sorted⟩ := List.pairwise_cons.mp sorted
      cases rest with
      | nil => simp
      | cons second rest =>
          refine List.nodup_cons.mpr
            ⟨?_, ih (separated.subset (List.subset_cons_self _ _)) rest_sorted distinct.2⟩
          rw [mem_map_normal]
          rintro ⟨last, last_mem, same⟩
          have second_le : Text.le second.text last.text = true := by
            rcases List.mem_cons.mp last_mem with rfl | later
            · exact Text.le_refl _
            · exact (List.pairwise_cons.mp rest_sorted).1 last later
          have repeated : second.same first = true :=
            separated first List.mem_cons_self last (List.mem_cons_of_mem _ last_mem)
              (same_iff.mpr (same_iff.mp same).symm) second (by simp)
              (first_le second List.mem_cons_self) second_le
          have different := distinct.1
          rw [same_iff.mpr (same_iff.mp repeated).symm] at different
          cases different

theorem mem_normals_ordered (scalars : List Scalar) (scalar : Scalar) :
    scalar ∈ (ordered scalars).map normal ↔ scalar ∈ scalars.map normal := by
  simp only [List.mem_map]
  constructor
  · rintro ⟨kept, kept_mem, rfl⟩
    exact ⟨kept, mem_of_mem_ordered kept_mem, rfl⟩
  · rintro ⟨first, first_mem, rfl⟩
    rcases exists_same_ordered first_mem with ⟨kept, kept_mem, same⟩
    exact ⟨kept, kept_mem, same_iff.mp same⟩

/-- The order of separated conjuncts depends on nothing but which of them there are. -/
theorem normals_ordered (separated : Separated pool) (scalars_subset : scalars ⊆ pool)
    (others_subset : others ⊆ pool) (same : SameElements scalars others) :
    (ordered scalars).map normal = (ordered others).map normal := by
  -- the texts of some representatives are in order; by the separation this order is antisymmetric
  let Before (first second : Scalar) : Prop := ∃ left ∈ pool, ∃ right ∈ pool,
    left.normal = first ∧ right.normal = second ∧ Text.le left.text right.text = true
  have before {list : List Scalar} (list_subset : list ⊆ pool) :
      ((ordered list).map normal).Pairwise Before := by
    refine List.pairwise_map.mpr ((sorted_ordered list).imp_of_mem ?_)
    intro left right left_mem right_mem le
    exact ⟨left, list_subset (mem_of_mem_ordered left_mem), right,
      list_subset (mem_of_mem_ordered right_mem), rfl, rfl, le⟩
  have nodup {list : List Scalar} (list_subset : list ⊆ pool) :
      ((ordered list).map normal).Nodup :=
    nodup_normals (separated.subset fun _ scalar_mem =>
      list_subset (mem_of_mem_ordered scalar_mem)) (sorted_ordered list) (distinct_dedupAdjacent _)
  have antisymm {first second : Scalar} (there : Before first second)
      (back : Before second first) : first = second := by
    rcases there with ⟨left, left_mem, right, right_mem, rfl, rfl, le⟩
    rcases back with ⟨right', right_mem', left', left_mem', right_eq, left_eq, le'⟩
    rcases Text.le_total right.text left'.text with inside | inside
    · exact (same_iff.mp (separated left left_mem left' left_mem' (same_iff.mpr left_eq.symm) right
        right_mem le inside)).symm
    · rw [← left_eq, ← right_eq]
      exact same_iff.mp (separated right' right_mem' right right_mem (same_iff.mpr right_eq) left'
        left_mem' le' inside)
  have perm : ((ordered scalars).map normal).Perm ((ordered others).map normal) := by
    refine (List.perm_ext_iff_of_nodup (nodup scalars_subset) (nodup others_subset)).mpr ?_
    intro scalar
    rw [mem_normals_ordered, mem_normals_ordered]
    constructor
    · intro scalar_mem
      rcases List.mem_map.mp scalar_mem with ⟨first, first_mem, rfl⟩
      exact mem_map_normal.mpr ((same first).mp ⟨first, first_mem, same_self first⟩)
    · intro scalar_mem
      rcases List.mem_map.mp scalar_mem with ⟨second, second_mem, rfl⟩
      exact mem_map_normal.mpr ((same second).mpr ⟨second, second_mem, same_self second⟩)
  exact perm.eq_of_pairwise (fun _ _ _ _ => antisymm) (before scalars_subset)
    (before others_subset)

end Separated

/-- Two expressions that are different and in the order of their texts are in canonical order. -/
theorem canonicalConjunction_pair {first second : Scalar} (different : first.same second = false)
    (le : Text.le first.text second.text = true) :
    canonicalConjunction [first, second] = .and [first, second] := by
  simp [canonicalConjunction, sortByText, insertByText, dedupAdjacent, dedupAfter, le, different,
    conjunction]

/-- Conjunctions of the same expressions are the same exactly if the expressions are separated. -/
theorem separated_iff {pool : List Scalar} :
    Separated pool ↔ ∀ scalars ⊆ pool, ∀ others ⊆ pool, SameElements scalars others →
      (canonicalConjunction scalars).same (canonicalConjunction others) = true := by
  constructor
  · intro separated scalars scalars_subset others others_subset same
    exact same_conjunction (separated.normals_ordered scalars_subset others_subset same)
  · intro agree first first_mem last last_mem same between between_mem first_le le_last
    by_contra different
    -- in one list `between` comes last, in the other one it comes first
    have same_last : last.same between = false := by
      rw [Bool.eq_false_iff, ne_eq, same_iff, ← same_iff.mp same]
      exact fun equal => different (same_iff.mpr equal.symm)
    have left : canonicalConjunction [first, between] = .and [first, between] := by
      refine canonicalConjunction_pair (Bool.eq_false_iff.mpr fun equal => different ?_) first_le
      exact same_iff.mpr (same_iff.mp equal).symm
    have right : canonicalConjunction [between, last] = .and [between, last] := by
      refine canonicalConjunction_pair (Bool.eq_false_iff.mpr fun equal => ?_) le_last
      rw [same_iff.mpr (same_iff.mp equal).symm] at same_last
      cases same_last
    have elements : SameElements [first, between] [between, last] := by
      intro scalar
      simp [same_iff, same_iff.mp same, or_comm]
    have conjunctions := agree [first, between] (by simp [first_mem, between_mem]) [between, last]
      (by simp [last_mem, between_mem]) elements
    rw [left, right, same_iff] at conjunctions
    simp only [normal, normals, and.injEq, List.cons.injEq] at conjunctions
    exact different (same_iff.mpr conjunctions.1.symm)

end Scalar

/-- The operators that join on a condition. -/
def Operator.joins (type : JoinType) (build : BuildSide) : List (Scalar → Operator) :=
  [fun condition => .logical (.join type condition),
    fun condition => .physical (.hashJoin type build condition),
    fun condition => .physical (.mergeJoin type condition),
    fun condition => .physical (.nestedLoopJoin type condition)]

theorem Operator.same_joins {type : JoinType} {build : BuildSide} {join : Scalar → Operator}
    (join_mem : join ∈ joins type build) {first second : Scalar}
    (same : first.canonical.same second.canonical = true) :
    (join first).canonical.same (join second).canonical = true := by
  rw [Scalar.same_iff] at same
  rw [Operator.same_iff]
  simp only [joins, List.mem_cons, List.not_mem_nil, or_false] at join_mem
  rcases join_mem with rfl | rfl | rfl | rfl <;>
    simp [canonical, normal, LogicalOperator.canonical, LogicalOperator.normal,
      PhysicalOperator.canonical, PhysicalOperator.normal, same]

namespace Memo

/-- What an insertion reports is stored then. -/
theorem knows_add {memo : Memo} (consistent : memo.Consistent) (operator : Operator)
    (children : List GroupId) (origin : Option RuleId) :
    ∃ known, (memo.add operator children origin).1.Knows operator children known ∧
      (memo.add operator children origin).2 = (known.group, known.id) := by
  rcases add_exact consistent operator children origin with ⟨-, of_known, of_unknown⟩
  by_cases unknown : ∀ known, ¬ memo.Knows operator children known
  · rcases of_unknown unknown with ⟨creates, reported⟩
    refine ⟨⟨memo.expressions.size, memo.groups.size, operator.canonical, children, origin, .empty⟩,
      ⟨?_, ?_, rfl⟩, reported⟩
    · rw [expression?, creates.expressions]
      exact Array.getElem?_push_size
    · exact Operator.same_iff.mpr (congrArg Operator.normal (Operator.canonical_canonical operator))
  · rcases not_forall_not.mp unknown with ⟨known, knows⟩
    rw [of_known known knows]
    exact ⟨known, knows, rfl⟩

theorem Inserted.knows {memo larger : Memo} (inserted : memo.Inserted larger) {operator : Operator}
    {children : List GroupId} {known : Expression} (knows : memo.Knows operator children known) :
    larger.Knows operator children known := by
  refine ⟨?_, knows.operator, knows.children⟩
  have stored := knows.stored
  rcases inserted.expressions_prefix with ⟨rest, later⟩
  rw [expression?, ← Array.getElem?_toList] at stored ⊢
  rw [← later, List.getElem?_append_left (List.getElem?_eq_some_iff.mp stored).1]
  exact stored

end Memo

namespace Scalar

/--
Conjunctions of the same expressions are the same exactly if the expressions are separated. Joins on
separated conjuncts then are one shape of a memo, whichever is inserted first.
-/
theorem conjuncts_exact (pool : List Scalar) :
    (Separated pool ↔ ∀ scalars ⊆ pool, ∀ others ⊆ pool, SameElements scalars others →
      (canonicalConjunction scalars).same (canonicalConjunction others) = true) ∧
    ∀ {first second : Scalar}, Separated pool → first.conjuncts ⊆ pool → second.conjuncts ⊆ pool →
      SameElements first.conjuncts second.conjuncts → ∀ {type build join},
        join ∈ Operator.joins type build → ∀ {memo larger : Memo} {children origin group id},
          memo.Built → memo.add (join first) children origin = (larger, group, id) →
            ∀ {later : Memo} (origin'), larger.Inserted later →
              later.add (join second) children origin' = (later, group, id) := by
  refine ⟨separated_iff, ?_⟩
  intro first second separated first_subset second_subset same type build join join_mem memo larger
    children origin group id built added later origin' inserted
  have agree := separated_iff.mp separated _ first_subset _ second_subset same
  rcases Memo.knows_add built.consistent (join first) children origin with ⟨known, knows, reported⟩
  rw [added] at knows reported
  cases reported
  have larger_built : larger.Built := by
    have grown := built.add (join first) children origin
    rwa [added] at grown
  have consistent := (inserted.built larger_built).consistent
  have found : later.Knows (join second) children known := by
    have kept := inserted.knows knows
    refine ⟨kept.stored, ?_, kept.children⟩
    rw [Operator.same_iff, Operator.same_iff.mp kept.operator,
      Operator.same_iff.mp (Operator.same_joins join_mem agree)]
  exact (Memo.add_exact consistent (join second) children origin').2.1 known found

/-- Two equalities are separated, and their joins are one shape. -/
theorem conjuncts_exact_equalities :
    (∀ scalars ⊆ [equality "a" "x" "b" "x", equality "a" "y" "b" "y"],
      ∀ others ⊆ [equality "a" "x" "b" "x", equality "a" "y" "b" "y"], SameElements scalars others →
        (canonicalConjunction scalars).same (canonicalConjunction others) = true) ∧
    Memo.joined.add (.logical (.join .inner
      (.and [equality "a" "y" "b" "y", equality "a" "x" "b" "x"]))) [0, 1] (some 1) =
        (Memo.joined, 2, 2) := by
  have separated : Separated [equality "a" "x" "b" "x", equality "a" "y" "b" "y"] := by
    unfold Separated
    decide +kernel
  have same : SameElements
      (Scalar.and [equality "a" "x" "b" "x", equality "a" "y" "b" "y"]).conjuncts
      (Scalar.and [equality "a" "y" "b" "y", equality "a" "x" "b" "x"]).conjuncts := by
    intro scalar
    simp [conjuncts, conjunctsOf, equality, or_comm]
  let scan (memo : Memo) (table : String) : Memo :=
    (memo.add (.logical (.scan ⟨"public", table⟩ [] none)) [] none).1
  have added : (scan (scan .empty "a") "b").add (.logical (.join .inner
      (.and [equality "a" "x" "b" "x", equality "a" "y" "b" "y"]))) [0, 1] none =
        (Memo.joined, 2, 2) :=
    Prod.ext rfl (by decide +kernel)
  rcases conjuncts_exact [equality "a" "x" "b" "x", equality "a" "y" "b" "y"] with ⟨exact_, found⟩
  refine ⟨exact_.mp separated, ?_⟩
  have built : (scan (scan .empty "a") "b").Built := .add _ _ _ (.add _ _ _ .empty)
  have first_mem : (fun condition => Operator.logical (.join .inner condition)) ∈
      Operator.joins .inner .left := List.mem_cons_self
  exact found separated (by simp [conjuncts, conjunctsOf, equality])
    (by simp [conjuncts, conjunctsOf, equality]) same first_mem built added (some 1) .none

/-- The comparison of a column with one, as an integer or as a double-precision number. -/
def isOne (asFloat : Bool) : Scalar :=
  .binary .eq (.column (.qualified "a" "x"))
    (.literal (if asFloat then .float64 ⟨0x3ff0000000000000⟩ else .int64 1))

/--
The two comparisons have one text. So their conjunction depends on which of them comes first, and
the memo stores two joins.
-/
theorem conjuncts_ordered :
    (∀ scalar, scalar ∈ [isOne false, isOne true] ↔ scalar ∈ [isOne true, isOne false]) ∧
    (isOne false).text = (isOne true).text ∧
    (canonicalConjunction [isOne false, isOne true]).same
      (canonicalConjunction [isOne true, isOne false]) = false ∧
    let scan (memo : Memo) (table : String) : Memo :=
      (memo.add (.logical (.scan ⟨"public", table⟩ [] none)) [] none).1
    let join (memo : Memo) (conjuncts : List Scalar) : Memo × GroupId × ExprId :=
      memo.add (.logical (.join .inner (.and conjuncts))) [0, 1] none
    let first := join (scan (scan .empty "a") "b") [isOne false, isOne true]
    first.2 = (2, 2) ∧ (join first.1 [isOne true, isOne false]).2 = (3, 3) := by
  refine ⟨?_, by decide +kernel, by decide +kernel, by decide +kernel, by decide +kernel⟩
  intro scalar
  simp [or_comm]

end Scalar

end Cascades
