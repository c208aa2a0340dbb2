import Cascades.Proofs.Rules.Algorithms
import Cascades.Proofs.Search.Layers

/-!
# What implementation stores

The implementations store an algorithm for an expression in the group of the expression, over its
inputs. No other group can hold that algorithm over those inputs, because it would hold a logical
expression with the same operator and inputs as well. So once a group has been implemented, every
logical expression in it has all its algorithms there, and the group has no others.
-/

namespace Cascades

open Rules (numberedTransformations numberedImplementations Runnable)

namespace Memo

variable {memo larger : Memo} {id : ExprId} {number : RuleId} {expression : Expression}
  {physical : PhysicalOperator}

/-- A physical operator is stored in a group over some inputs. -/
def Offers (memo : Memo) (group : GroupId) (physical : PhysicalOperator) (children : List GroupId) :
    Prop :=
  ∃ id made, memo.expression? id = some made ∧ made.group = group ∧
    made.operator = .physical physical ∧ made.children = children

/-- The group of an expression offers the algorithms that a rule gives for it. -/
def Implemented (memo : Memo) (number : RuleId) (id : ExprId) : Prop :=
  ∃ expression, memo.expression? id = some expression ∧ ∀ physical, Runnable expression physical →
    physical.maker = number → memo.Offers expression.group physical expression.children

/-- Every physical expression is an algorithm for a logical one of its group, over the same inputs. -/
def Sourced (memo : Memo) : Prop :=
  ∀ ⦃id made physical⦄, memo.expression? id = some made → made.operator = .physical physical →
    ∃ source expression, memo.expression? source = some expression ∧ expression.group = made.group ∧
      expression.children = made.children ∧ Runnable expression physical

theorem Offers.mono {group : GroupId} {children : List GroupId}
    (offers : memo.Offers group physical children) (grows : memo.Grows larger) :
    larger.Offers group physical children := by
  rcases offers with ⟨id, made, stored, facts⟩
  rcases grows.expressions stored with ⟨applied, larger_stored, -⟩
  exact ⟨id, _, larger_stored, facts⟩

theorem Implemented.mono (implemented : memo.Implemented number id) (grows : memo.Grows larger) :
    larger.Implemented number id := by
  rcases implemented with ⟨expression, stored, offers⟩
  rcases grows.expressions stored with ⟨applied, larger_stored, -⟩
  refine ⟨_, larger_stored, fun physical runnable maker_eq => ?_⟩
  exact (offers physical (Rules.runnable_marked.mp runnable) maker_eq).mono grows

/-! ## Marks -/

theorem isApplied_of_push {other : ExprId} {group : GroupId} {operator : Operator}
    {children : List GroupId} {origin : Option RuleId}
    (applied : (memo.push group operator children origin).isApplied other number = .ok true) :
    memo.isApplied other number = .ok true := by
  rw [isApplied_iff] at applied ⊢
  rcases applied with ⟨expression, stored, marked⟩
  rw [expression?_push] at stored
  split at stored
  · cases stored
    rw [RuleSet.contains_empty] at marked
    cases marked
  · exact ⟨expression, stored, marked⟩

theorem isApplied_of_add {other : ExprId} {operator : Operator} {children : List GroupId}
    {origin : Option RuleId}
    (applied : (memo.add operator children origin).1.isApplied other number = .ok true) :
    memo.isApplied other number = .ok true := by
  rw [Memo.add] at applied
  split at applied
  · exact applied
  · exact isApplied_of_push applied

theorem isApplied_of_addTo {other : ExprId} {group : GroupId} {operator : Operator}
    {children : List GroupId} {origin : Option RuleId} {insertion : Insertion}
    (added : memo.addTo group operator children origin = .ok (larger, insertion))
    (applied : larger.isApplied other number = .ok true) : memo.isApplied other number = .ok true := by
  rcases addTo_cases added with ⟨rfl, -⟩ | ⟨rfl, -⟩
  · exact applied
  · exact isApplied_of_push applied

end Memo

/-- A rule job leaves no mark but its own. -/
theorem RuleJob.isApplied_of_step {context : Context} {job : RuleJob} {progress after : Progress}
    {outcome : Except Failure Step} (consistent : progress.memo.Consistent)
    (step_eq : job.step context progress = .ok (after, outcome)) {id : ExprId} {number : RuleId}
    (applied : after.memo.isApplied id number = .ok true) :
    progress.memo.isApplied id number = .ok true ∨ (id = job.expression ∧ number = job.rule) := by
  rcases marks_of_step step_eq with ⟨-, marked, isNew, marked_eq, inserted⟩
  have marked_applied : marked.isApplied id number = .ok true := by
    rcases inserted with same | ⟨_, expression, _, results, added, outcome, -, -, -, -, inserted⟩
    · exact same ▸ applied
    · let Kept (larger : Memo) : Prop :=
        larger.isApplied id number = .ok true → marked.isApplied id number = .ok true
      exact @insertAll_kept marked job.rule Kept expression.group results 0 added after.memo outcome
        (fun _ _ _ _ _ _ kept applied => kept (Memo.isApplied_of_add applied))
        (fun _ kept _ added_eq applied => kept (Memo.isApplied_of_addTo added_eq applied))
        (fun applied => applied) inserted applied
  rcases Memo.marked_of_markApplied consistent marked_eq with ⟨expression, stored, rfl⟩
  rcases Memo.isApplied_iff.mp marked_applied with ⟨held, held_stored, contains⟩
  rcases Memo.expression?_of_marked consistent stored held_stored with ⟨before, before_stored, -, marks⟩
  rcases marks number contains with old | new
  · exact .inl (Memo.isApplied_iff.mpr ⟨before, before_stored, old⟩)
  · exact .inr new

/-! ## Storing algorithms -/

namespace Memo.Sourced

variable {memo : Memo} {id : ExprId} {expression : Expression} {physical : PhysicalOperator}
  (consistent : memo.Consistent) (sourced : memo.Sourced)
  (stored : memo.expression? id = some expression) (runnable : Runnable expression physical)
include consistent stored runnable

omit sourced in
theorem canonical_eq : physical.canonical = physical := by
  refine LogicalOperator.canonical_of_mem ?_ runnable.mem
  have canonical := consistent.canonical stored
  rw [runnable.operator] at canonical
  exact Operator.logical.inj canonical

include sourced

/-- An algorithm for an expression is found in the group of the expression, if anywhere. -/
theorem offers_of_find? {found : Expression}
    (known : memo.find? (.physical physical) expression.children = some found) :
    memo.Offers expression.group physical expression.children := by
  rcases expression?_of_find? known with ⟨⟨place, found_stored⟩, children_eq, same⟩
  rw [Operator.same_iff] at same
  cases operator_eq : found.operator with
  | logical other =>
      rw [operator_eq] at same
      cases same
  | physical other =>
      rw [operator_eq] at same
      have normal_eq : other.normal = physical.normal := Operator.physical.inj same
      rcases sourced found_stored operator_eq with
        ⟨source, origin, origin_stored, group_eq, inputs_eq, runs⟩
      have same_origin : origin.operator.same expression.operator = true := by
        rw [runs.operator, runnable.operator, Operator.same_iff]
        exact congrArg Operator.logical (by
          rw [← PhysicalOperator.form_normal, normal_eq, PhysicalOperator.form_normal])
      -- both run the same shape, so the payloads agree as well and not only up to sameness
      obtain rfl := consistent.unique origin_stored stored (inputs_eq.trans children_eq) same_origin
      obtain rfl := Option.some.inj (origin_stored.symm.trans stored)
      have form_eq : other.form = physical.form :=
        Operator.logical.inj (runs.operator.symm.trans runnable.operator)
      rw [PhysicalOperator.eq_of_normal form_eq normal_eq] at operator_eq
      exact ⟨place, found, found_stored, group_eq.symm, operator_eq, children_eq⟩

theorem inserts (number : RuleId) (exist : ∀ child ∈ expression.children, child < memo.groups.size) :
    ∃ next, RuleJob.Inserts number expression.group
      (.substitution (.physical physical) expression.children) memo next ∧ next.Consistent ∧
        next.Sourced ∧ memo.Grows next ∧
          next.Offers expression.group physical expression.children := by
  have canonical : (Operator.physical physical).canonical = .physical physical :=
    congrArg Operator.physical (canonical_eq consistent stored runnable)
  have group_lt := consistent.group_lt stored
  rcases Memo.addTo_succeeds group_lt (.physical physical) expression.children (some number) with
    ⟨next, insertion, added⟩
  refine ⟨next, .substitution exist added, ?_⟩
  have either := Memo.addTo_cases added
  rw [canonical] at either
  rcases either with ⟨rfl, found, known⟩ | ⟨rfl, -, missing⟩
  · exact ⟨consistent, sourced, .refl next, offers_of_find? consistent sourced stored runnable known⟩
  · refine ⟨consistent.push group_lt canonical missing, ?_, grows_push, memo.expressions.size,
      ⟨memo.expressions.size, expression.group, .physical physical, expression.children, some number,
        .empty⟩, ?_, rfl, rfl, rfl⟩
    · intro other made algorithm made_stored operator_eq
      rw [expression?_push] at made_stored
      split at made_stored
      · cases made_stored
        cases operator_eq
        exact ⟨id, expression, expression?_push_of_some stored, rfl, rfl, runnable⟩
      · rcases sourced made_stored operator_eq with ⟨source, origin, origin_stored, facts⟩
        exact ⟨source, origin, expression?_push_of_some origin_stored, facts⟩
    · rw [expression?_push, if_pos rfl]

omit runnable in
theorem insertAll (number : RuleId) (exist : ∀ child ∈ expression.children, child < memo.groups.size)
    {results : List RuleResult} (algorithms : ∀ result ∈ results, ∃ physical,
      Runnable expression physical ∧ result = .substitution (.physical physical) expression.children) :
    ∃ larger total, RuleJob.insertAll number expression.group memo 0 results =
        .ok (larger, total, .ok ()) ∧ larger.Sourced ∧ memo.Grows larger ∧
      ∀ physical, .substitution (.physical physical) expression.children ∈ results →
        larger.Offers expression.group physical expression.children := by
  let Kept (stage : Memo) : Prop := stage.Consistent ∧ stage.Sourced ∧ memo.Grows stage
  let Stored (stage : Memo) (result : RuleResult) : Prop := ∀ physical,
    result = .substitution (.physical physical) expression.children →
      stage.Offers expression.group physical expression.children
  have keeps {stage : Memo} {result : RuleResult} (result_mem : result ∈ results)
      (kept : Kept stage) : ∃ next, RuleJob.Inserts number expression.group result stage next ∧
        Kept next ∧ Stored next result ∧ ∀ other, Stored stage other → Stored next other := by
    rcases kept with ⟨stage_consistent, stage_sourced, grows⟩
    rcases algorithms result result_mem with ⟨physical, runnable, rfl⟩
    rcases grows.expressions stored with ⟨marks, stage_stored, -⟩
    rcases stage_sourced.inserts stage_consistent stage_stored (Rules.runnable_marked.mpr runnable)
      number (fun child child_mem => Nat.lt_of_lt_of_le (exist child child_mem) grows.size_le) with
      ⟨next, inserts, next_consistent, next_sourced, next_grows, offers⟩
    refine ⟨next, inserts, ⟨next_consistent, next_sourced, grows.trans next_grows⟩, ?_, ?_⟩
    · intro other same
      cases same
      exact offers
    · exact fun other before physical same => (before physical same).mono next_grows
  rcases @RuleJob.insertAll_achieves number Kept Stored expression.group results keeps memo
    ⟨consistent, sourced, .refl memo⟩ 0 with
    ⟨larger, total, inserted, ⟨-, larger_sourced, larger_grows⟩, all_stored, -⟩
  exact ⟨larger, total, inserted, larger_sourced, larger_grows,
    fun physical result_mem => all_stored _ result_mem physical rfl⟩

end Memo.Sourced

/-! ## Searches -/

section Rules

variable {catalog : Catalog} {config : SearchConfig} {memo : Memo} {id : ExprId} {number : RuleId}
  {rule : Rule} {expression : Expression}

theorem isCompatible_implementation (pair_mem : (number, rule) ∈ numberedImplementations)
    (origin : Option RuleId) : Rulebook.standard.isCompatible number origin = true := by
  have nothing : rule.incompatible = [] := by
    rw [Rules.numberedImplementations_eq] at pair_mem
    simp only [List.mem_cons, List.not_mem_nil, or_false, Prod.mk.injEq] at pair_mem
    rcases pair_mem with ⟨-, rfl⟩ | ⟨-, rfl⟩ | ⟨-, rfl⟩ | ⟨-, rfl⟩ | ⟨-, rfl⟩ | ⟨-, rfl⟩ | ⟨-, rfl⟩ |
      ⟨-, rfl⟩ | ⟨-, rfl⟩ | ⟨-, rfl⟩ <;> rfl
  cases origin with
  | none => rfl
  | some producer =>
      rw [Rulebook.isCompatible, Rulebook.lookup_implementation pair_mem]
      split
      · rename_i held name same _
        cases same
        simp [nothing]
      · rfl

/-- Where its pattern has matched, an implementation gives algorithms over the inputs of the expression. -/
theorem runnable_of_matched (pair_mem : (number, rule) ∈ numberedImplementations)
    (matched : (Memo.context .standard catalog config).Matched memo number id)
    (stored : memo.expression? id = some expression) {result : RuleResult}
    (runs : Rules.Runs number expression result) : ∃ physical, Runnable expression physical ∧
      result = .substitution (.physical physical) expression.children := by
  rcases matched with ⟨held, earlier, lookup_eq, grows, fits⟩
  rcases runs with ⟨operator, physical, children, operator_eq, physical_mem, rfl, rfl, taken⟩
  cases lookup_eq.symm.trans (Rulebook.lookup_implementation pair_mem)
  rw [PhysicalOperator.rule_eq pair_mem] at fits
  -- the pattern was matched on an earlier memo, where the expression has been stored already
  have known : ∃ before, earlier.expression? id = some before := by
    cases before_eq : earlier.expression? id with
    | some before => exact ⟨before, rfl⟩
    | none =>
        rw [physical.pattern_eq, Pattern.logical, Pattern.fits, Memo.expression, before_eq] at fits
        cases fits
  rcases known with ⟨before, before_stored⟩
  rcases grows.expressions before_stored with ⟨applied, later_stored, -⟩
  cases stored.symm.trans later_stored
  have runnable : Runnable { before with applied } physical := Rules.runnable_marked.mpr
    (Rules.runnable_of_fits before_stored operator_eq physical_mem fits)
  refine ⟨physical, runnable, ?_⟩
  rcases taken with rfl | ⟨rfl, no_inputs⟩
  · rfl
  · have form_eq := LogicalOperator.form_of_mem physical_mem
    rw [← form_eq, ← runnable.arity] at no_inputs
    rw [List.length_eq_zero_iff.mp no_inputs]

end Rules

/-- What a search keeps of a memo in order to implement its groups in full. -/
structure Implementing (memo : Memo) : Prop where
  sourced : memo.Sourced
  marked : ∀ {id number rule}, (number, rule) ∈ numberedImplementations →
    memo.isApplied id number = .ok true → memo.Implemented number id
  served : ∀ {group member number rule}, memo.Reached group .implement →
    member ∈ memo.logicalIds group → (number, rule) ∈ numberedImplementations →
      memo.Implemented number member

namespace Memo

variable {memo larger : Memo}

/-- Physical expressions that were there before keep the expressions that they run. -/
theorem Sourced.source_mono (sourced : memo.Sourced) (grows : memo.Grows larger) {id : ExprId}
    {before made : Expression} {physical : PhysicalOperator}
    (stored : memo.expression? id = some before)
    (same : made = { before with applied := made.applied })
    (operator_eq : made.operator = .physical physical) :
    ∃ source expression, larger.expression? source = some expression ∧
      expression.group = made.group ∧ expression.children = made.children ∧
        Runnable expression physical := by
  rw [same] at operator_eq ⊢
  rcases sourced stored operator_eq with
    ⟨source, expression, source_stored, group_eq, children_eq, runnable⟩
  rcases grows.expressions source_stored with ⟨applied, larger_stored, -⟩
  exact ⟨source, _, larger_stored, group_eq, children_eq, Rules.runnable_marked.mpr runnable⟩

theorem Sourced.marked (sourced : memo.Sourced) (consistent : memo.Consistent) {id : ExprId}
    {expression : Expression} (stored : memo.expression? id = some expression) (rule : RuleId) :
    (memo.marked expression rule).Sourced := by
  intro other made physical made_stored operator_eq
  rcases expression?_of_marked consistent stored made_stored with ⟨before, before_stored, same, -⟩
  exact sourced.source_mono (extends_marked consistent stored).grows before_stored same operator_eq

end Memo

section Steps

variable {catalog : Catalog} {config : SearchConfig} {progress after : Progress} {id : ExprId}
  {number : RuleId} {rule : Rule} {expression : Expression} {outcome : Except Failure Step}

/-- Transformations store no physical expressions. -/
theorem sourced_of_transformation (consistent : progress.memo.Consistent)
    (sourced : progress.memo.Sourced) (grows : progress.memo.Grows after.memo)
    (pair_mem : (number, rule) ∈ numberedTransformations)
    (stored : progress.memo.expression? id = some expression)
    (step_eq : RuleJob.step ⟨number, id⟩ (Memo.context .standard catalog config) progress =
      .ok (after, outcome)) : after.memo.Sourced := by
  intro other made physical made_stored operator_eq
  rcases RuleJob.adding_of_step consistent stored step_eq other made made_stored with
    ⟨before, before_stored, same⟩ | ⟨applied, application, results, lookup_eq, apply_eq, results_eq,
      result, result_mem, makes⟩
  · exact sourced.source_mono grows before_stored same operator_eq
  · cases lookup_eq.symm.trans (Rulebook.lookup_transformation pair_mem)
    rcases makes.operator with ⟨part, part_mem, made_eq⟩
    have logical := Rules.transformation_logical pair_mem apply_eq results_eq result result_mem part
      part_mem
    rw [← Operator.isLogical_canonical, ← made_eq, operator_eq] at logical
    cases logical

/-- An implementation stores all its algorithms for an expression. -/
theorem implemented_of_implementation (consistent : progress.memo.Consistent)
    (implementing : Implementing progress.memo)
    (pair_mem : (number, rule) ∈ numberedImplementations) {goal : Goal}
    (ripe : progress.memo.Ripe id goal expression)
    (matched : (Memo.context .standard catalog config).Matched progress.memo number id)
    (step_eq : RuleJob.step ⟨number, id⟩ (Memo.context .standard catalog config) progress =
      .ok (after, outcome)) : after.memo.Sourced ∧ after.memo.Implemented number id := by
  have stored := ripe.stored
  let later : Expression := { expression with applied := expression.applied.insert number }
  let marked := progress.memo.marked expression number
  have marked_grows : progress.memo.Grows marked := (Memo.extends_marked consistent stored).grows
  have marked_sourced : marked.Sourced := implementing.sourced.marked consistent stored number
  have marked_stored : marked.expression? id = some later := by
    rw [Memo.expression?_marked consistent stored, if_pos rfl]
  rcases @Rules.implementation_applies marked catalog later number rule pair_mem with
    ⟨results, apply_eq, runs⟩
  have algorithms (result : RuleResult) (result_mem : result ∈ results) : ∃ physical,
      Runnable later physical ∧ result = .substitution (.physical physical) later.children :=
    runnable_of_matched pair_mem (matched.mono marked_grows) marked_stored (runs result result_mem)
  rcases RuleJob.step_cases consistent stored (Rulebook.lookup_implementation pair_mem) apply_eq
    step_eq with ⟨-, known, memo_eq⟩ | ⟨total, inserted, -, inserted_eq⟩
  · have before := implementing.marked pair_mem (Memo.isApplied_iff.mpr ⟨expression, stored, known⟩)
    rw [memo_eq]
    exact ⟨marked_sourced, before.mono marked_grows⟩
  · have exist (child : GroupId) (child_mem : child ∈ later.children) : child < marked.groups.size :=
      (ripe.children child child_mem).lt
    rcases marked_sourced.insertAll (consistent.marked stored) marked_stored number exist algorithms with
      ⟨larger, count, all_inserted, larger_sourced, larger_grows, all_stored⟩
    have same : RuleJob.insertAll number expression.group marked 0 results =
        .ok (larger, count, .ok ()) := all_inserted
    cases inserted_eq.symm.trans same
    refine ⟨larger_sourced, ?_⟩
    rcases larger_grows.expressions marked_stored with ⟨marks, larger_stored, -⟩
    refine ⟨_, larger_stored, fun physical runnable maker_eq => ?_⟩
    subst maker_eq
    have given : ∃ made, rule.apply later marked catalog = .ok (.results made) ∧
        .substitution (.physical physical) later.children ∈ made := by
      rw [PhysicalOperator.rule_eq pair_mem]
      exact (Rules.runnable_marked.mp runnable : Runnable later physical).gives
    rcases given with ⟨made, made_eq, result_mem⟩
    cases apply_eq.symm.trans made_eq
    exact all_stored physical result_mem

/-- A rule that is passed over gives no algorithm that is not stored already. -/
theorem implemented_of_passed {memo : Memo} {job : ExpressionJob} (implementing : Implementing memo)
    {goal : Goal} (ripe : memo.Ripe job.expression goal expression)
    (passed : job.candidate (Memo.context .standard catalog config) memo expression number =
      .ok (.ok none)) : memo.Implemented number job.expression := by
  refine ⟨expression, ripe.stored, ?_⟩
  rintro physical runnable rfl
  have lookup_own := Rulebook.lookup_implementation physical.maker_mem
  rcases ExpressionJob.candidate_cases passed with ⟨-, applied | incompatible | ⟨held, lookup_eq,
    misfit | no_promise⟩⟩ | ⟨held, promise, absurd, -⟩
  · rcases implementing.marked physical.maker_mem applied with ⟨same, same_stored, offers⟩
    cases ripe.stored.symm.trans same_stored
    exact offers physical runnable rfl
  · cases (isCompatible_implementation physical.maker_mem expression.origin).symm.trans incompatible
  · cases lookup_eq.symm.trans lookup_own
    cases (runnable.fits ripe.stored).symm.trans misfit
  · cases lookup_eq.symm.trans lookup_own
    rcases @Rules.Runnable.promises memo catalog expression physical runnable with
      ⟨promise, promise_eq, some_promise⟩
    cases promise_eq.symm.trans no_promise
    exact (some_promise rfl).elim
  · cases absurd

theorem implementing_discipline {top : Goal} : Discipline (Memo.context .standard catalog config) top
    (fun memo => Layered top memo ∧ Implementing memo) Memo.Implemented where
  consistent := fun kept => kept.1.built.consistent
  applied := by
    rintro goal number id expression outcome progress after ⟨layered, implementing⟩ within rule_mem
      ripe unreached matched step_eq
    rcases layered_discipline.applied layered within rule_mem ripe unreached matched step_eq with
      ⟨after_layered, grows, -, flags, only_done⟩
    have consistent := layered.built.consistent
    have widens := layered.widens_of_step within ripe.stored unreached step_eq
    have stores : after.memo.Sourced ∧ after.memo.Implemented number id := by
      cases goal with
      | explore =>
          rw [phase_explore] at rule_mem
          rcases List.mem_map.mp rule_mem with ⟨⟨_, rule⟩, pair_mem, rfl⟩
          rcases grows.expressions ripe.stored with ⟨applied, after_stored, -⟩
          refine ⟨sourced_of_transformation consistent implementing.sourced grows pair_mem
            ripe.stored step_eq, _, after_stored, ?_⟩
          rintro physical - rfl
          exact (phases_disjoint physical.maker_mem pair_mem).elim
      | implement =>
          rw [phase_implement] at rule_mem
          rcases List.mem_map.mp rule_mem with ⟨⟨_, rule⟩, pair_mem, rfl⟩
          exact implemented_of_implementation consistent implementing pair_mem ripe matched step_eq
    refine ⟨⟨after_layered, stores.1, ?_, ?_⟩, grows, fun done => done.mono grows, flags,
      fun step same => ⟨(only_done step same).1, stores.2⟩⟩
    · intro other target rule pair_mem applied
      rcases RuleJob.isApplied_of_step consistent step_eq applied with before | ⟨rfl, rfl⟩
      · exact (implementing.marked pair_mem before).mono grows
      · exact stores.2
    · intro group member target rule reached member_mem pair_mem
      -- a group of the goal of the run has all its logical expressions, so none of them is new
      have before := flags reached
      have reached_top : progress.memo.Reached group top := by
        cases top with
        | explore => exact layered.explored before
        | implement => exact before
      rw [widens.frozen reached_top] at member_mem
      exact (implementing.served before member_mem pair_mem).mono grows
  marked := by
    rintro memo id goal group ⟨layered, implementing⟩ found unreached explored served
    have grows : memo.Grows (memo.flagged id group goal) := (Memo.extends_flagged found).grows
    have ripe (member : ExprId) (member_mem : member ∈ group.logical) :
        ∃ expression, memo.Ripe member goal expression := by
      rcases served member member_mem with ⟨expression, ripe, -⟩
      exact ⟨expression, ripe⟩
    refine ⟨⟨layered.flagged found explored ripe, implementing.sourced, implementing.marked, ?_⟩,
      fun done => done.mono grows⟩
    intro other member number rule reached member_mem pair_mem
    rw [Memo.logicalIds_flagged found] at member_mem
    rcases (Memo.reached_flagged found).mp reached with before | ⟨rfl, rfl⟩
    · exact (implementing.served before member_mem pair_mem).mono grows
    · rw [Memo.logicalIds, found] at member_mem
      rcases served member member_mem with ⟨expression, ripe, done⟩
      refine (done number ?_).mono grows
      rw [phase_implement]
      exact List.mem_map.mpr ⟨_, pair_mem, rfl⟩
  passed_over := fun kept _ _ _ ripe passed => implemented_of_passed kept.2 ripe passed

end Steps

namespace Memo

variable {memo : Memo}

theorem Sourced.covered (sourced : memo.Sourced) (consistent : memo.Consistent) : memo.Covered := by
  intro id next leads
  rcases consistent.leadsTo_iff.mp leads with ⟨member, made, stored, rfl, kind_eq, next_mem⟩
  rcases Operator.eq_physical kind_eq with ⟨physical, operator_eq⟩
  rcases sourced stored operator_eq with
    ⟨source, expression, source_stored, group_eq, children_eq, runnable⟩
  exact consistent.leadsTo_iff.mpr ⟨source, expression, source_stored, group_eq,
    by rw [runnable.operator]; rfl, children_eq ▸ next_mem⟩

/-- There is nothing to show of logical expressions without marks in groups without flags. -/
theorem implementing_of_logical (unreached : ∀ id goal, ¬ memo.Reached id goal)
    (logical : ∀ expression ∈ memo.expressions, expression.operator.isLogical = true)
    (unmarked : ∀ expression ∈ memo.expressions, expression.applied = .empty) :
    Implementing memo where
  sourced := by
    intro id made physical stored operator_eq
    have made_logical := logical made (Array.mem_of_getElem? stored)
    rw [operator_eq] at made_logical
    cases made_logical
  marked := by
    intro id number rule _ applied
    rcases isApplied_iff.mp applied with ⟨expression, stored, marked⟩
    rw [unmarked expression (Array.mem_of_getElem? stored), RuleSet.contains_empty] at marked
    cases marked
  served := fun reached => (unreached _ _ reached).elim

end Memo

/-! ## Counting algorithms -/

namespace Memo

/-- The expressions that run the operator of another one in its group, over its inputs. -/
def runners (memo : Memo) (expression : Expression) : Set ExprId :=
  { id | ∃ made physical, memo.expression? id = some made ∧ made.group = expression.group ∧
    made.children = expression.children ∧ made.operator = .physical physical ∧
      expression.operator = .logical physical.form }

/-- The physical operator of an expression. -/
def physical? (memo : Memo) (id : ExprId) : Option PhysicalOperator :=
  match memo.expression? id with
  | some ⟨_, _, .physical physical, _, _, _⟩ => some physical
  | _ => none

variable {memo : Memo} {expression : Expression}

theorem physical?_eq {id : ExprId} {made : Expression} {physical : PhysicalOperator}
    (stored : memo.expression? id = some made) (operator_eq : made.operator = .physical physical) :
    memo.physical? id = some physical := by
  rcases made with ⟨_, _, operator, _, _, _⟩
  cases operator_eq
  rw [physical?, stored]

/-- Different expressions run an operator in different ways. -/
theorem physical?_injOn (consistent : memo.Consistent) (expression : Expression) :
    Set.InjOn memo.physical? (memo.runners expression) := by
  rintro first ⟨left, algorithm, left_stored, -, left_children, left_eq, -⟩ second
    ⟨right, other, right_stored, -, right_children, right_eq, -⟩ same
  rw [physical?_eq left_stored left_eq, physical?_eq right_stored right_eq] at same
  cases same
  refine consistent.unique left_stored right_stored (left_children.trans right_children.symm) ?_
  rw [left_eq, right_eq]
  exact Operator.same_self _

end Memo

/-- In an implemented group, an expression is run by as many others as it has algorithms. -/
theorem Implementing.ncard_runners {memo : Memo} {expression : Expression}
    (implementing : Implementing memo) (consistent : memo.Consistent) {id : ExprId}
    {operator : LogicalOperator} (stored : memo.expression? id = some expression)
    (operator_eq : expression.operator = .logical operator)
    (reached : memo.Reached expression.group .implement) : (memo.runners expression).Finite ∧
      (memo.runners expression).ncard = operator.choices expression.children.length := by
  let algorithms := operator.algorithmsOver expression.children.length
  have member_mem : id ∈ memo.logicalIds expression.group := by
    rw [← Memo.mem_logicalIds, consistent.mem_members]
    exact ⟨expression, stored, rfl, by simp [Operator.planKind, operator_eq, Operator.isLogical]⟩
  have image_eq : memo.physical? '' memo.runners expression =
      some '' { physical | physical ∈ algorithms } := by
    ext found
    constructor
    · rintro ⟨place, ⟨made, physical, made_stored, -, children_eq, made_eq, form_eq⟩, rfl⟩
      rw [Memo.physical?_eq made_stored made_eq]
      rcases implementing.sourced made_stored made_eq with ⟨source, origin, -, -, inputs_eq, runnable⟩
      have runnable : Runnable expression physical :=
        ⟨form_eq, runnable.mem, by rw [← runnable.arity, inputs_eq, children_eq]⟩
      rcases Rules.runnable_iff.mp runnable with ⟨same, same_eq, physical_mem⟩
      cases operator_eq.symm.trans same_eq
      exact ⟨physical, physical_mem, rfl⟩
    · rintro ⟨physical, physical_mem, rfl⟩
      have runnable : Runnable expression physical :=
        Rules.runnable_iff.mpr ⟨operator, operator_eq, physical_mem⟩
      rcases implementing.served reached member_mem physical.maker_mem with ⟨same, same_stored, offers⟩
      cases stored.symm.trans same_stored
      rcases offers physical runnable rfl with
        ⟨place, made, made_stored, group_eq, made_eq, children_eq⟩
      exact ⟨place, ⟨made, physical, made_stored, group_eq, children_eq, made_eq, runnable.operator⟩,
        Memo.physical?_eq made_stored made_eq⟩
  have finite : { physical | physical ∈ algorithms }.Finite := algorithms.finite_toSet
  have injective := Memo.physical?_injOn consistent expression
  refine ⟨?_, ?_⟩
  · refine Set.Finite.of_finite_image ?_ injective
    rw [image_eq]
    exact finite.image _
  · rw [← injective.ncard_image, image_eq,
      Set.ncard_image_of_injective _ (Option.some_injective _), ← operator.length_algorithmsOver]
    classical
    have nodup : algorithms.Nodup := operator.nodup_algorithmsOver _
    rw [← List.coe_toFinset, Set.ncard_coe_finset, List.toFinset_card_of_nodup nodup]

end Cascades
