import Cascades.Proofs.Rules.Descent
import Cascades.Proofs.Search.Conservation
import Mathlib.Algebra.Order.BigOperators.Group.Finset

/-!
# Searches keep the descent of groups

A memo that is built bottom-up is the ground of all searches on it: its groups are ordered by the
number of their tables, and by their numbers if these are equal. Searches with the standard rules keep
this order, so that no group ever reads itself.
-/

namespace Cascades

open Relation
open Rules (numberedTransformations numberedImplementations)

namespace Memo

variable {memo : Memo}

/-! ## Memos that are built bottom-up -/

/-- Every group holds one logical expression of its own number, over groups of smaller numbers. -/
structure Aligned (memo : Memo) : Prop where
  sizes : memo.groups.size = memo.expressions.size
  original : ∀ {id expression}, memo.expression? id = some expression →
    expression.operator.isLogical = true ∧ expression.origin = none ∧ expression.applied = .empty ∧
      expression.group = id ∧ ∀ child ∈ expression.children, child < id
  unreached : ∀ id goal, ¬ memo.Reached id goal

theorem Aligned.add (aligned : memo.Aligned) (operator : LogicalOperator) {children : List GroupId}
    (exist : ∀ child ∈ children, child < memo.groups.size) :
    (memo.add (.logical operator) children none).1.Aligned := by
  rw [Memo.add]
  split
  · exact aligned
  · refine ⟨?_, ?_, ?_⟩
    · simp [Memo.push, aligned.sizes]
    · intro id expression stored
      rw [expression?_push] at stored
      split at stored
      · rename_i id_eq
        cases stored
        have id_eq : id = memo.expressions.size := id_eq
        exact ⟨rfl, rfl, rfl, aligned.sizes.trans id_eq.symm, fun child child_mem =>
          id_eq ▸ aligned.sizes ▸ exist child child_mem⟩
      · exact aligned.original stored
    · intro id goal reached
      rw [reached_push] at reached
      exact aligned.unreached id goal (reached_opened.mp reached)

theorem Composed.aligned (composed : memo.Composed) : memo.Aligned := by
  induction composed with
  | empty =>
      refine ⟨rfl, (fun stored => by cases stored), ?_⟩
      rintro id goal ⟨group, found, -⟩
      cases found
  | add operator children _ _ exist ih => exact ih.add operator exist

theorem Composed.built (composed : memo.Composed) : memo.Built := by
  induction composed with
  | empty => exact .empty
  | add operator children _ _ _ ih => exact .add _ _ _ ih

theorem Composed.untouched (composed : memo.Composed) : memo.Untouched := by
  have aligned := composed.aligned
  rcases composed.weighed with ⟨weight, weighed, -⟩
  refine ⟨fun stored => (aligned.original stored).1, fun stored => (aligned.original stored).2.1,
    weighed.closed, ?_, aligned.unreached⟩
  intro id expression stored rule
  rw [(aligned.original stored).2.2.1, RuleSet.contains_empty]

/-- Scans have the lowest rank, and other groups that of their number. -/
def rankOf (memo : Memo) (group : GroupId) : Nat :=
  match memo.expression? group with
  | some expression => if expression.children = [] then 0 else group + 1
  | none => 0

/-- The ground of the searches on a memo that is built bottom-up. -/
def ground (memo : Memo) (tables : Nat) : Ground where
  operators := memo.expressions.toList.map (·.operator.form)
  tables := tables
  rank := memo.rankOf
  step := memo.expressions.size + 1
  rank_lt := by
    intro group
    rw [rankOf]
    split
    · rename_i stored
      have group_lt := lt_of_expression? stored
      split
      · exact Nat.succ_pos _
      · exact Nat.succ_lt_succ group_lt
    · exact Nat.succ_pos _

theorem mem_ground {id : ExprId} {expression : Expression}
    (stored : memo.expression? id = some expression) (tables : Nat) :
    expression.operator.form ∈ (memo.ground tables).operators :=
  List.mem_map.mpr
    ⟨expression, Array.mem_toList_iff.mpr (Array.mem_of_getElem? stored), rfl⟩

section Composed

variable {weight : GroupId → Multiset TableRef}

/-- Every group of a memo that is built bottom-up has a scan below it. -/
theorem Aligned.scanning (aligned : memo.Aligned) (weighed : Weighed weight memo) {group : GroupId}
    (group_lt : group < memo.groups.size) : 0 < (weight group).card := by
  induction group using Nat.strongRecOn with
  | ind group ih =>
      have stored : ∃ expression, memo.expression? group = some expression :=
        ⟨_, Array.getElem?_eq_getElem (aligned.sizes ▸ group_lt)⟩
      rcases stored with ⟨expression, stored⟩
      rcases aligned.original stored with ⟨logical, -, -, group_eq, earlier⟩
      have balanced := weighed.balanced stored
      rw [group_eq] at balanced
      have tables := balanced.tables
      cases children_eq : expression.children with
      | nil =>
          have arity := balanced.arity
          rw [children_eq] at arity
          cases operator_eq : expression.operator with
          | physical operator =>
              rw [operator_eq] at logical
              cases logical
          | logical operator =>
              rw [operator_eq] at arity tables
              cases operator <;>
                simp_all [Operator.arity, LogicalOperator.arity, Operator.scans, Operator.scanned?]
      | cons child rest =>
          rw [children_eq] at earlier tables
          have child_lt := earlier child List.mem_cons_self
          have child_some := ih child child_lt (Nat.lt_trans child_lt group_lt)
          rw [tables, List.map_cons, List.sum_cons, Multiset.card_add, Multiset.card_add]
          omega

/-- A memo that is built bottom-up descends from itself. -/
theorem Composed.descends (composed : memo.Composed) :
    ∃ tables weight, memo.Descends (memo.ground tables) weight := by
  have aligned := composed.aligned
  rcases composed.weighed with ⟨weight, weighed, -⟩
  let tables := ∑ group ∈ Finset.range memo.groups.size, (weight group).card
  refine ⟨tables, weight, weighed, ?_, ?_, ?_⟩
  · intro group group_lt
    exact ⟨aligned.scanning weighed group_lt, Finset.single_le_sum
      (f := fun group => (weight group).card) (fun _ _ => Nat.zero_le _) (Finset.mem_range.mpr group_lt)⟩
  · intro id expression stored
    rcases aligned.original stored with ⟨-, -, -, rfl, earlier⟩
    have rank_eq : (memo.ground tables).rank expression.group =
        if expression.children = [] then 0 else expression.group + 1 := by
      change memo.rankOf expression.group = _
      rw [rankOf, stored]
    refine ⟨weighed.consistent.canonical stored,
      LogicalOperator.derivesFrom_of_mem (mem_ground stored tables), ?_, ?_⟩
    · intro child child_mem
      have child_rank : (memo.ground tables).rank child ≤ child + 1 := by
        change memo.rankOf child ≤ _
        rw [rankOf]
        split
        · split
          · exact Nat.zero_le _
          · exact Nat.le_refl _
        · exact Nat.zero_le _
      rw [if_neg (List.ne_nil_of_mem child_mem)] at rank_eq
      rw [Ground.grade, Ground.grade, rank_eq]
      exact Nat.add_lt_add_of_le_of_lt
        (Nat.mul_le_mul_left _ (Multiset.card_le_card (weighed.child_le stored child_mem)))
        (Nat.lt_of_le_of_lt child_rank (Nat.succ_lt_succ (earlier child child_mem)))
    · intro none
      rw [rank_eq, if_pos none]
  · intro group size_le
    change memo.rankOf group = 0
    rw [rankOf]
    split
    · rename_i stored
      have group_lt : (group : Nat) < memo.expressions.size := lt_of_expression? stored
      exact (Nat.not_lt_of_le size_le (aligned.sizes ▸ group_lt)).elim
    · rfl

end Composed

/-! ## Groups that descend -/

section Descends

variable {ground : Ground} {weight : GroupId → Multiset TableRef}

theorem Descends.grade_lt_of_leadsTo (descends : memo.Descends ground weight) {kind : PlanKind}
    {id next : GroupId} (leads : TransGen (memo.LeadsTo kind) id next) :
    ground.grade weight next < ground.grade weight id := by
  have step {upper lower : GroupId} (leads : memo.LeadsTo kind upper lower) :
      ground.grade weight lower < ground.grade weight upper := by
    rcases descends.weighed.consistent.leadsTo_iff.mp leads with
      ⟨member, expression, stored, rfl, -, lower_mem⟩
    exact (descends.placed stored).lower lower lower_mem
  induction leads with
  | single leads => exact step leads
  | tail _ leads ih => exact Nat.lt_trans (step leads) ih

/-- No group reads itself. -/
theorem Descends.acyclicBelow (descends : memo.Descends ground weight) (kind : PlanKind)
    (root : GroupId) : memo.AcyclicBelow kind root :=
  fun _ _ cycle => Nat.lt_irrefl _ (descends.grade_lt_of_leadsTo cycle)

end Descends

end Memo

/-! ## Searches -/

/-- A standard rule marks its expression, and all results that it gives are stored. -/
theorem RuleJob.step_stores {ground : Ground} {weight : GroupId → Multiset TableRef} {job : RuleJob}
    {context : Context} {progress after : Progress} {outcome : Except Failure Step}
    (standard : context.rules = .standard) (descends : progress.memo.Descends ground weight)
    (step_eq : job.step context progress = .ok (after, outcome)) :
    ∃ target, progress.memo.expression? job.expression = some target ∧
      (after.memo = progress.memo.marked target job.rule ∨ ∃ results total wider,
        insertAll job.rule target.group (progress.memo.marked target job.rule) 0 results =
          .ok (after.memo, total, .ok ()) ∧ after.memo.Descends ground wider) := by
  rcases marks_of_step step_eq with ⟨-, marked, isNew, marked_eq, rest⟩
  rcases Memo.marked_of_markApplied descends.weighed.consistent marked_eq with ⟨target, target_stored, rfl⟩
  have marked_descends := descends.marked target_stored job.rule
  refine ⟨target, target_stored, rest.imp_right ?_⟩
  rintro ⟨applied, expression, application, results, added, stored_outcome, lookup_eq, stored, apply_eq,
    results_eq, inserted⟩
  rw [standard] at lookup_eq
  rcases Rulebook.mem_numbered lookup_eq with ⟨number, pair_mem⟩
  have own : (progress.memo.marked target job.rule).expression? expression.id = some expression :=
    (marked_descends.weighed.consistent.numbered stored) ▸ stored
  have group_eq : expression.group = target.group := by
    rw [Memo.expression?_marked descends.weighed.consistent target_stored, if_pos rfl] at stored
    cases stored
    rfl
  rcases marked_descends.applies own pair_mem with ⟨given, given_eq, fitting⟩
  cases apply_eq.symm.trans given_eq
  cases results_eq
  rcases marked_descends.insertAll job.rule (marked_descends.weighed.consistent.group_lt stored)
    fitting 0 with ⟨larger, total, wider, inserted_eq, -, larger_descends⟩
  cases inserted.symm.trans inserted_eq
  exact ⟨_, _, wider, group_eq ▸ inserted_eq, larger_descends⟩

theorem RuleJob.step_descends {ground : Ground} {job : RuleJob} {context : Context}
    {progress after : Progress} {outcome : Except Failure Step} (standard : context.rules = .standard)
    (descends : ∃ weight, progress.memo.Descends ground weight)
    (step_eq : job.step context progress = .ok (after, outcome)) :
    ∃ weight, after.memo.Descends ground weight := by
  rcases descends with ⟨weight, descends⟩
  rcases RuleJob.step_stores standard descends step_eq with
    ⟨target, stored, same | ⟨-, -, wider, -, wider_descends⟩⟩
  · exact ⟨weight, same ▸ descends.marked stored job.rule⟩
  · exact ⟨wider, wider_descends⟩

/-- What the searches on a memo with the standard rules keep: what is settled, and the ground. -/
structure Memo.Governed (ground : Ground) (catalog : Catalog) (memo : Memo) : Prop where
  saturating : memo.Saturating catalog
  built : memo.Built
  descends : ∃ weight, memo.Descends ground weight

theorem Memo.Composed.governed {memo : Memo} (composed : memo.Composed) :
    ∃ tables, ∀ catalog, memo.Governed (memo.ground tables) catalog := by
  rcases composed.descends with ⟨tables, weight, descends⟩
  exact ⟨tables, fun _ =>
    ⟨composed.untouched.saturating composed.built.consistent, composed.built, weight, descends⟩⟩

theorem governed_discipline {catalog : Catalog} {config : SearchConfig} {top : Goal}
    (ground : Ground) : Discipline (Memo.context .standard catalog config) top
      (Memo.Governed ground catalog) (Memo.Finished catalog) := by
  have discipline := @standard_discipline catalog config top
  refine ⟨⟨fun governed => governed.built.consistent, ?_, ?_⟩,
    fun governed => discipline.passed_over governed.saturating⟩
  · intro goal rule id expression outcome progress after governed within rule_mem ripe unreached
      matched step_eq
    rcases discipline.applied governed.saturating within rule_mem ripe unreached matched step_eq with
      ⟨saturating, rest⟩
    exact ⟨⟨saturating, RuleJob.step_built governed.built step_eq,
      RuleJob.step_descends rfl governed.descends step_eq⟩, rest⟩
  · intro memo id goal group governed found unreached explored finished
    rcases discipline.marked governed.saturating found unreached explored finished with
      ⟨saturating, rest⟩
    exact ⟨⟨saturating, governed.built.flagged goal found,
      governed.descends.imp fun _ descends => descends.flagged found goal⟩, rest⟩

end Cascades
