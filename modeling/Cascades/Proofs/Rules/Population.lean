import Cascades.Proofs.Memo.Insertions
import Cascades.Proofs.Rules.Descent
import Mathlib.Data.Finset.Option
import Mathlib.Data.List.Permutation
import Mathlib.Data.Set.Finite.Lattice
import Mathlib.Data.Set.Finite.List

/-!
# How large a memo can grow

Only finitely many operators derive from a ground whose conjuncts are told apart by their texts,
because no condition repeats a conjunct. Groups that read only finitely many others can then only
hold finitely many expressions, so that a memo that descends from the ground cannot outgrow a bound
that depends on nothing but the ground.
-/

namespace Cascades

/-! ## Finitely many operators -/

theorem finite_nodup_subset {α : Type} (pool : List α) :
    {scalars : List α | scalars.Nodup ∧ scalars ⊆ pool}.Finite := by
  refine Set.Finite.subset (List.finite_toSet (pool.sublists.flatMap List.permutations)) ?_
  rintro scalars ⟨nodup, subset⟩
  rcases List.subperm_of_subset nodup subset with ⟨sublist, perm, contained⟩
  exact List.mem_flatMap.mpr ⟨sublist, List.mem_sublists.mpr contained,
    List.mem_permutations.mpr perm.symm⟩

namespace Scalar

/-- Conditions on conjuncts that their texts tell apart repeat none of them. -/
theorem finite_conditions {pool : List Scalar} (discernible : Discernible pool) :
    {condition : Scalar | condition.canonical = condition ∧ condition.conjuncts ⊆ pool}.Finite := by
  refine Set.Finite.subset ((finite_nodup_subset pool).image conjunction) ?_
  rintro condition ⟨canonical, subset⟩
  refine ⟨ordered condition.conjuncts, ⟨?_, ?_⟩, canonical⟩
  · exact (discernible.subset subset).nodup_ordered
  · exact fun conjunct conjunct_mem => subset (mem_of_mem_ordered conjunct_mem)

end Scalar

theorem JoinType.finite : (Set.univ : Set JoinType).Finite := by
  refine Set.Finite.subset (List.finite_toSet [inner, left, right, full, semi, anti, cross]) ?_
  rintro type -
  cases type <;> simp

namespace LogicalOperator

variable {given : List LogicalOperator}

/-- The columns that a projection needs from its input. -/
def needed : LogicalOperator → List (List ColumnRef)
  | .project scalars _ => [Rules.neededColumns scalars]
  | _ => []

/-- A scan that reads these columns only. -/
def narrowed (columns : List ColumnRef) : LogicalOperator → List LogicalOperator
  | .scan table _ predicate => [.scan table columns predicate]
  | _ => []

theorem finite_derived (discernible : Scalar.Discernible (given.flatMap conjuncts)) :
    {operator : LogicalOperator | operator.canonical = operator ∧ operator.DerivesFrom given}.Finite := by
  have own := List.finite_toSet given
  have joins := Set.Finite.image2 join JoinType.finite (Scalar.finite_conditions discernible)
  let scans := given.flatMap fun operator => (given.flatMap needed).flatMap operator.narrowed
  refine Set.Finite.subset ((own.union joins).union (List.finite_toSet scans)) ?_
  rintro operator ⟨canonical, derives⟩
  cases operator with
  | join type condition =>
      rw [LogicalOperator.canonical, join.injEq] at canonical
      exact .inl (.inr ⟨type, trivial, condition, ⟨canonical.2, derives⟩, rfl⟩)
  | scan table columns predicate =>
      rcases derives with ⟨own, own_mem, rfl | ⟨scalars, aliases, project_mem, rfl⟩⟩
      · exact .inl (.inl own_mem)
      · have needed_mem : Rules.neededColumns scalars ∈ given.flatMap needed :=
          List.mem_flatMap.mpr ⟨_, project_mem, List.mem_singleton_self _⟩
        exact .inr (List.mem_flatMap.mpr ⟨_, own_mem,
          List.mem_flatMap.mpr ⟨_, needed_mem, List.mem_singleton_self _⟩⟩)
  | filter predicate => exact .inl (.inl derives)
  | project scalars aliases => exact .inl (.inl derives)
  | aggregate keys aggregates => exact .inl (.inl derives)
  | sort order => exact .inl (.inl derives)
  | limit offset count => exact .inl (.inl derives)

/-- The operator itself, and the physical operators that run it. -/
def forms : LogicalOperator → List Operator
  | .scan table columns predicate =>
      [.logical (.scan table columns predicate), .physical (.seqScan table columns predicate)]
  | .filter predicate => [.logical (.filter predicate), .physical (.filter predicate)]
  | .project scalars aliases =>
      [.logical (.project scalars aliases), .physical (.project scalars aliases)]
  | .join type condition =>
      [.logical (.join type condition), .physical (.hashJoin type .left condition),
        .physical (.hashJoin type .right condition), .physical (.mergeJoin type condition),
        .physical (.nestedLoopJoin type condition)]
  | .aggregate keys aggregates =>
      [.logical (.aggregate keys aggregates), .physical (.hashAggregate keys aggregates),
        .physical (.streamAggregate keys aggregates)]
  | .sort order => [.logical (.sort order), .physical (.sort order)]
  | .limit offset count => [.logical (.limit offset count), .physical (.limit offset count)]

end LogicalOperator

namespace Operator

theorem mem_forms (operator : Operator) : operator ∈ operator.form.forms := by
  rcases operator with operator | operator
  · cases operator <;> simp [form, LogicalOperator.forms]
  · cases operator with
    | hashJoin type build condition =>
        cases build <;> simp [form, PhysicalOperator.form, LogicalOperator.forms]
    | _ => simp [form, PhysicalOperator.form, LogicalOperator.forms]

theorem canonical_form {operator : Operator} (canonical : operator.canonical = operator) :
    operator.form.canonical = operator.form := by
  rcases operator with operator | operator
  · exact Operator.logical.inj canonical
  · have same := Operator.physical.inj canonical
    cases operator <;> simp_all [form, PhysicalOperator.form, PhysicalOperator.canonical,
      LogicalOperator.canonical]

theorem arity_le (operator : Operator) : operator.arity ≤ 2 := by
  rcases operator with operator | operator
  · cases operator <;> simp [arity, LogicalOperator.arity]
  · cases operator <;> simp [arity, PhysicalOperator.form, LogicalOperator.arity]

end Operator

namespace Ground

/-- The conjuncts of the conditions and filters are told apart by their texts. -/
def Discernible (ground : Ground) : Prop :=
  Scalar.Discernible (ground.operators.flatMap LogicalOperator.conjuncts)

theorem finite_operators {ground : Ground} (discernible : ground.Discernible) :
    {operator : Operator | operator.canonical = operator ∧
      operator.form.DerivesFrom ground.operators}.Finite := by
  refine Set.Finite.subset ((LogicalOperator.finite_derived discernible).biUnion fun operator _ =>
    List.finite_toSet operator.forms) ?_
  rintro operator ⟨canonical, derives⟩
  exact Set.mem_biUnion ⟨Operator.canonical_form canonical, derives⟩ operator.mem_forms

/-- A bound on the groups below a grade, if there are so many operators. -/
def capacity (operators : Nat) : Nat → Nat
  | 0 => 0
  | level + 1 => operators * ((capacity operators level + 1) * (capacity operators level + 1))

end Ground

/-! ## Levels of a memo -/

namespace Memo

variable {ground : Ground} {weight : GroupId → Multiset TableRef} {memo : Memo} {level : Nat}

/-- The groups below a grade. -/
def groupsBelow (memo : Memo) (ground : Ground) (weight : GroupId → Multiset TableRef)
    (level : Nat) : Finset GroupId :=
  (Finset.range memo.groups.size).filter fun group => ground.grade weight group < level

/-- The expressions in groups below a grade. -/
def expressionsBelow (memo : Memo) (ground : Ground) (weight : GroupId → Multiset TableRef)
    (level : Nat) : Finset (Fin memo.expressions.size) :=
  Finset.univ.filter fun id => ground.grade weight memo.expressions[id].group < level

theorem mem_groupsBelow {group : GroupId} : group ∈ memo.groupsBelow ground weight level ↔
    group < memo.groups.size ∧ ground.grade weight group < level := by
  rw [groupsBelow, Finset.mem_filter, Finset.mem_range]

theorem mem_expressionsBelow {id : Fin memo.expressions.size} :
    id ∈ memo.expressionsBelow ground weight level ↔
      ground.grade weight memo.expressions[id].group < level := by
  rw [expressionsBelow, Finset.mem_filter, and_iff_right (Finset.mem_univ id)]

theorem expression?_fin (id : Fin memo.expressions.size) :
    memo.expression? id = some memo.expressions[id] :=
  Array.getElem?_eq_getElem id.isLt

/-- No group is empty, so that there are at most as many groups as expressions. -/
theorem card_groupsBelow_le (built : memo.Built) :
    (memo.groupsBelow ground weight level).card ≤ (memo.expressionsBelow ground weight level).card := by
  refine Finset.card_le_card_of_surjOn (fun id => memo.expressions[id].group) ?_
  intro group group_mem
  rcases mem_groupsBelow.mp group_mem with ⟨group_lt, lower⟩
  have found : memo.group? group = some memo.groups[group] := Array.getElem?_eq_getElem group_lt
  rcases List.exists_mem_of_ne_nil _ (built.ordered.inhabited found) with ⟨member, member_mem⟩
  rcases built.consistent.exists_of_mem found member_mem with ⟨expression, stored, group_eq⟩
  have member_lt := lt_of_expression? stored
  have same : memo.expressions[member] = expression :=
    Option.some.inj ((expression?_fin ⟨member, member_lt⟩).symm.trans stored)
  refine ⟨⟨member, member_lt⟩, mem_expressionsBelow.mpr ?_, ?_⟩
  · change ground.grade weight memo.expressions[member].group < level
    rw [same, group_eq]
    exact lower
  · change memo.expressions[member].group = group
    rw [same, group_eq]

/-- Two children, if there are any. -/
def childPair (children : List GroupId) : Option GroupId × Option GroupId :=
  (children[0]?, children[1]?)

theorem childPair_inj {children others : List GroupId} (length_le : children.length ≤ 2)
    (others_le : others.length ≤ 2) (same : childPair children = childPair others) :
    children = others := by
  rcases Prod.mk.inj same with ⟨first_eq, second_eq⟩
  refine List.ext_getElem? fun place => ?_
  match place with
  | 0 => exact first_eq
  | 1 => exact second_eq
  | place + 2 => rw [List.getElem?_eq_none (by omega), List.getElem?_eq_none (by omega)]

/-- Expressions differ in their operators or in their children, which are groups further below. -/
theorem Descends.card_expressionsBelow_le (descends : memo.Descends ground weight)
    {operators : Finset Operator} (derived : ∀ operator : Operator, operator.canonical = operator →
      operator.form.DerivesFrom ground.operators → operator ∈ operators) (level : Nat) :
    (memo.expressionsBelow ground weight (level + 1)).card ≤
      operators.card * (((memo.groupsBelow ground weight level).card + 1) *
        ((memo.groupsBelow ground weight level).card + 1)) := by
  let children := Finset.insertNone (memo.groupsBelow ground weight level)
  have length_le (id : Fin memo.expressions.size) : memo.expressions[id].children.length ≤ 2 :=
    (descends.weighed.balanced (expression?_fin id)).arity.trans_le (Operator.arity_le _)
  have child_mem {id : Fin memo.expressions.size}
      (id_mem : id ∈ memo.expressionsBelow ground weight (level + 1)) (place : Nat) :
      memo.expressions[id].children[place]? ∈ children := by
    rw [Finset.mem_insertNone]
    intro child child_eq
    have child_mem : child ∈ memo.expressions[id].children := List.mem_of_getElem? child_eq
    have lower := (descends.placed (expression?_fin id)).lower child child_mem
    have upper := mem_expressionsBelow.mp id_mem
    exact mem_groupsBelow.mpr ⟨descends.weighed.closed (expression?_fin id) child child_mem,
      Nat.lt_of_lt_of_le lower (Nat.le_of_lt_succ upper)⟩
  have injective : Set.InjOn (fun id : Fin memo.expressions.size =>
      (memo.expressions[id].operator, childPair memo.expressions[id].children))
      (memo.expressionsBelow ground weight (level + 1)) := by
    intro first _ second _ same
    rcases Prod.mk.inj same with ⟨operator_eq, pair_eq⟩
    refine Fin.ext (descends.weighed.consistent.unique (expression?_fin first)
      (expression?_fin second) (childPair_inj (length_le first) (length_le second) pair_eq) ?_)
    rw [operator_eq]
    exact Operator.same_self _
  calc (memo.expressionsBelow ground weight (level + 1)).card
      ≤ (operators ×ˢ children ×ˢ children).card := by
        refine Finset.card_le_card_of_injOn _ ?_ injective
        intro id id_mem
        have places := descends.placed (expression?_fin id)
        exact Finset.mem_product.mpr ⟨derived _ places.canonical places.derives,
          Finset.mem_product.mpr ⟨child_mem id_mem 0, child_mem id_mem 1⟩⟩
    _ = _ := by
        rw [Finset.card_product, Finset.card_product, Finset.card_insertNone]

theorem Descends.card_le_capacity (descends : memo.Descends ground weight) (built : memo.Built)
    {operators : Finset Operator} (derived : ∀ operator : Operator, operator.canonical = operator →
      operator.form.DerivesFrom ground.operators → operator ∈ operators) (level : Nat) :
    (memo.expressionsBelow ground weight level).card ≤ Ground.capacity operators.card level := by
  induction level with
  | zero =>
      rw [Ground.capacity, Nat.le_zero, Finset.card_eq_zero]
      exact Finset.filter_eq_empty_iff.mpr fun id _ => Nat.not_lt_zero _
  | succ level ih =>
      have groups_le := Nat.succ_le_succ ((card_groupsBelow_le built).trans ih)
      exact (descends.card_expressionsBelow_le derived level).trans
        (Nat.mul_le_mul_left _ (Nat.mul_le_mul groups_le groups_le))

end Memo

/-- Whatever memos descend from a ground, there is a bound on how many expressions they hold. -/
theorem Ground.bounded {ground : Ground} (discernible : ground.Discernible) :
    ∃ bound, ∀ {memo : Memo} {weight : GroupId → Multiset TableRef}, memo.Built →
      memo.Descends ground weight → memo.expressions.size ≤ bound := by
  let operators := (finite_operators discernible).toFinset
  refine ⟨capacity operators.card (ground.step * (ground.tables + 1)), ?_⟩
  intro memo weight built descends
  have all : memo.expressionsBelow ground weight (ground.step * (ground.tables + 1)) = Finset.univ := by
    refine Finset.filter_true_of_mem fun id _ => ground.grade_lt ?_
    have group_lt := descends.weighed.consistent.group_lt (Memo.expression?_fin id)
    exact Nat.lt_succ_of_le (descends.scanning group_lt).2
  have derived (operator : Operator) (canonical : operator.canonical = operator)
      (derives : operator.form.DerivesFrom ground.operators) : operator ∈ operators :=
    (finite_operators discernible).mem_toFinset.mpr ⟨canonical, derives⟩
  have card_le := descends.card_le_capacity built derived (ground.step * (ground.tables + 1))
  rwa [all, Finset.card_univ, Fintype.card_fin] at card_le

end Cascades
