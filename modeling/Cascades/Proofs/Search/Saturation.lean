import Cascades.Proofs.Rules.Algorithms
import Cascades.Proofs.Search.Runs

/-!
# Saturation under the standard transformations

A standard transformation is settled for an expression if the memo stores whatever the rule gives
for it, or if the rule is not to be applied to it. Once the children of the expression are explored
this never changes. A run of the standard rules, whatever becomes of it, keeps a memo in which the
transformations are settled for all logical expressions of explored groups and for all expressions
that they are recorded for.
-/

namespace Cascades

open Rules (numberedTransformations numberedImplementations commutativityId commuteJoin)

namespace Memo

/-- The memo stores what a rule gives for an expression, if it is to be applied at all. -/
def Settled (memo : Memo) (catalog : Catalog) (expression : Expression) (rule : Rule) : Prop :=
  ∀ promise results, rule.pattern.Matches memo expression →
    rule.promise expression memo catalog = .ok promise → promise ≠ .none →
      rule.apply expression memo catalog = .ok (.results results) →
        ∀ result ∈ results, memo.StoresResult result

/-- What the runs of the standard rules keep of a memo. -/
structure Saturating (catalog : Catalog) (memo : Memo) : Prop where
  consistent : memo.Consistent
  closed : memo.Closed
  below : memo.ExploredBelow
  settled : ∀ {id expression number rule}, memo.Reached id .explore →
    expression ∈ memo.logicalIn id → (number, rule) ∈ numberedTransformations →
      memo.Settled catalog expression rule
  marked : ∀ {expression number rule}, memo.expression? expression.id = some expression →
    (number, rule) ∈ numberedTransformations → expression.applied.contains number = true →
      (∀ child ∈ expression.children, memo.Reached child .explore) ∧
        memo.Settled catalog expression rule
  commuted : ∀ {expression}, memo.expression? expression.id = some expression →
    expression.origin = some commutativityId → ∀ result ∈ commuteJoin expression, memo.StoresResult result
  implemented : ∀ {id}, memo.Reached id .implement → memo.Reached id .explore
  physical : ∀ {expression}, memo.expression? expression.id = some expression →
    expression.operator.isLogical = false → expression.children = [] ∨
      ∃ sibling ∈ memo.logicalIn expression.group, sibling.children = expression.children

section Evolve

variable {catalog : Catalog} {memo larger : Memo} {expression later : Expression}

/-- Over explored groups a settled rule stays settled. -/
theorem Settled.mono {rule : Rule} (settled : memo.Settled catalog expression rule)
    (steady : rule.Steady catalog) (evolves : memo.Evolves larger)
    (stored : memo.expression? expression.id = some expression)
    (later_stored : larger.expression? later.id = some later)
    (same : later.unmarked = expression.unmarked)
    (explored : ∀ child ∈ expression.children, memo.Reached child .explore) :
    larger.Settled catalog later rule := by
  intro promise results fits promise_eq some_promise apply_eq result result_mem
  rw [steady.promise_frozen evolves stored later_stored same explored] at promise_eq
  rw [steady.apply_frozen evolves stored later_stored same explored] at apply_eq
  rw [Pattern.matches_frozen evolves.extends_ evolves.consistent evolves.larger_consistent
    evolves.below _ steady.pattern same explored] at fits
  exact (settled promise results fits promise_eq some_promise apply_eq result result_mem).mono evolves.extends_
    evolves.consistent evolves.larger_consistent

/-- Why a group of a larger memo has been driven to a goal. -/
def NewlyReached (catalog : Catalog) (memo larger : Memo) (id : GroupId) : Goal → Prop
  | .explore => memo.Frozen larger id ∧ ∀ expression ∈ memo.logicalIn id,
      (∀ child ∈ expression.children, memo.Reached child .explore) ∧
        ∀ {number rule}, (number, rule) ∈ numberedTransformations →
          memo.Settled catalog expression rule
  | .implement => memo.Reached id .explore

/-- An expression of a larger memo that was stored before, with new marks for settled rules only. -/
def Remarked (catalog : Catalog) (memo larger : Memo) (later : Expression) : Prop :=
  ∃ before, memo.expression? later.id = some before ∧ later.unmarked = before.unmarked ∧
    ∀ {number rule}, (number, rule) ∈ numberedTransformations →
      later.applied.contains number = true → before.applied.contains number = true ∨
        ((∀ child ∈ later.children, larger.Reached child .explore) ∧
          larger.Settled catalog later rule)

/-- An expression that is new in a larger memo. -/
def Fresh (larger : Memo) (later : Expression) : Prop :=
  later.applied = .empty ∧
    (later.origin = some commutativityId → ∀ result ∈ commuteJoin later, larger.StoresResult result) ∧
      (later.operator.isLogical = false → later.children = [] ∨
        ∃ sibling ∈ larger.logicalIn later.group, sibling.children = later.children)

/-- What a change of the memo has to respect. -/
theorem Saturating.evolve (saturating : memo.Saturating catalog) (extension : memo.Extends larger)
    (larger_consistent : larger.Consistent) (larger_closed : larger.Closed)
    (reached : ∀ {id goal}, larger.Reached id goal →
      memo.Reached id goal ∨ NewlyReached catalog memo larger id goal)
    (stored : ∀ {later}, larger.expression? later.id = some later →
      Remarked catalog memo larger later ∨ Fresh larger later) : larger.Saturating catalog := by
  have evolves : memo.Evolves larger := ⟨extension, saturating.consistent, saturating.closed,
    larger_consistent, larger_closed, saturating.below⟩
  -- the logical expressions of an explored group were logical expressions over explored groups
  have earlier {id : GroupId} {later : Expression} (explored : larger.Reached id .explore)
      (later_mem : later ∈ larger.logicalIn id) : ∃ before ∈ memo.logicalIn id,
        later.unmarked = before.unmarked ∧
          (∀ child ∈ before.children, memo.Reached child .explore) ∧
            ∀ {number rule}, (number, rule) ∈ numberedTransformations →
              memo.Settled catalog before rule := by
    rcases reached explored with before_explored | ⟨frozen, settled⟩
    · rcases (evolves.frozen before_explored).mem_of_larger later_mem with ⟨before, before_mem, same⟩
      exact ⟨before, before_mem, same, saturating.below before_explored before_mem,
        fun pair_mem => saturating.settled before_explored before_mem pair_mem⟩
    · rcases frozen.mem_of_larger later_mem with ⟨before, before_mem, same⟩
      exact ⟨before, before_mem, same, (settled before before_mem).1,
        (settled before before_mem).2⟩
  refine ⟨larger_consistent, larger_closed, ?_, ?_, ?_, ?_, ?_, ?_⟩
  · intro id later explored later_mem child child_mem
    rcases earlier explored later_mem with ⟨before, -, same, children, -⟩
    rw [(Expression.unmarked_eq_iff.mp same).2.2.2.1] at child_mem
    exact extension.reached (children child child_mem)
  · intro id later number rule explored later_mem pair_mem
    rcases earlier explored later_mem with ⟨before, before_mem, same, children, settled⟩
    exact (settled pair_mem).mono (Rules.steady_of_mem pair_mem) evolves
      ((mem_logicalIn saturating.consistent).mp before_mem).1
      ((mem_logicalIn larger_consistent).mp later_mem).1 same children
  · intro later number rule later_stored pair_mem isMarked
    rcases stored later_stored with ⟨before, before_stored, same, marks⟩ | ⟨unmarked, -⟩
    · rcases marks pair_mem isMarked with before_marked | settled
      · have id_eq := (Expression.unmarked_eq_iff.mp same).1
        rw [id_eq] at before_stored
        rcases saturating.marked before_stored pair_mem before_marked with ⟨children, settled⟩
        refine ⟨?_, settled.mono (Rules.steady_of_mem pair_mem) evolves before_stored later_stored
          same children⟩
        intro child child_mem
        rw [(Expression.unmarked_eq_iff.mp same).2.2.2.1] at child_mem
        exact extension.reached (children child child_mem)
      · exact settled
    · rw [unmarked, RuleSet.contains_empty] at isMarked
      cases isMarked
  · intro later later_stored origin_eq
    rcases stored later_stored with ⟨before, before_stored, same, -⟩ | ⟨-, commuted, -⟩
    · rcases Expression.unmarked_eq_iff.mp same with ⟨id_eq, -, -, -, origin_same⟩
      rw [id_eq] at before_stored
      have results_eq : commuteJoin later = commuteJoin before := by
        rw [commuteJoin, commuteJoin, Expression.join?_congr same]
      intro result result_mem
      rw [results_eq] at result_mem
      exact (saturating.commuted before_stored (origin_same.symm.trans origin_eq) result
        result_mem).mono extension saturating.consistent larger_consistent
    · exact commuted origin_eq
  · intro id implemented
    rcases reached implemented with before | explored
    · exact extension.reached (saturating.implemented before)
    · exact extension.reached explored
  · intro later later_stored isPhysical
    rcases stored later_stored with ⟨before, before_stored, same, -⟩ | ⟨-, -, physical⟩
    · rcases Expression.unmarked_eq_iff.mp same with
        ⟨id_eq, group_eq, operator_eq, children_eq, -⟩
      rw [id_eq] at before_stored
      rw [operator_eq] at isPhysical
      rcases saturating.physical before_stored isPhysical with none | ⟨sibling, sibling_mem, siblings⟩
      · exact .inl (children_eq.trans none)
      · rcases (mem_logicalIn saturating.consistent).mp sibling_mem with
          ⟨sibling_stored, sibling_group, sibling_logical⟩
        rcases extension.expressions sibling_stored with ⟨applied, kept, -⟩
        refine .inr ⟨{ sibling with applied }, ?_, siblings.trans children_eq.symm⟩
        exact (mem_logicalIn larger_consistent).mpr
          ⟨kept, sibling_group.trans group_eq.symm, sibling_logical⟩
    · exact physical isPhysical

end Evolve

end Memo

/-! ## Steps of rule jobs -/

namespace RuleJob

variable {context : Context} {progress after : Progress} {rule : RuleId} {id : ExprId}
  {expression : Expression} {held : Rule} {results : List RuleResult}
  {outcome : Except Failure Step}

/-- A rule job marks its expression, and stores the results unless the mark was there before. -/
theorem step_cases (consistent : progress.memo.Consistent)
    (stored : progress.memo.expression? id = some expression)
    (lookup_eq : context.rules.lookup rule = .ok held)
    (apply_eq : held.apply { expression with applied := expression.applied.insert rule }
      (progress.memo.marked expression rule) context.catalog = .ok (.results results))
    (step_eq : RuleJob.step ⟨rule, id⟩ context progress = .ok (after, outcome)) :
    (outcome = .ok .done ∧ expression.applied.contains rule = true ∧
      after.memo = progress.memo.marked expression rule) ∨
    ∃ total inserted, outcome = Except.map (fun _ => Step.done) inserted ∧
      insertAll rule expression.group (progress.memo.marked expression rule) 0 results =
        .ok (after.memo, total, inserted) := by
  have marked_stored : (progress.memo.marked expression rule).expression? id =
      some { expression with applied := expression.applied.insert rule } := by
    rw [Memo.expression?_marked consistent stored, if_pos rfl]
  rw [step, Memo.markApplied_eq consistent stored] at step_eq
  simp only [bind, Except.bind, pure, Except.pure] at step_eq
  split at step_eq
  · rename_i known
    cases step_eq
    exact .inl ⟨rfl, by simpa using known, rfl⟩
  · rw [lookup_eq] at step_eq
    simp only [Memo.expression, marked_stored, run, apply_eq, bind, Except.bind, pure, Except.pure,
      Application.results] at step_eq
    split at step_eq
    · cases step_eq
    · rename_i inserted inserted_eq
      cases step_eq
      exact .inr ⟨_, _, rfl, inserted_eq⟩

/-- A rule job whose results exist succeeds. -/
theorem step_spec (consistent : progress.memo.Consistent) (closed : progress.memo.Closed)
    (stored : progress.memo.expression? id = some expression)
    (lookup_eq : context.rules.lookup rule = .ok held)
    (apply_eq : held.apply { expression with applied := expression.applied.insert rule }
      (progress.memo.marked expression rule) context.catalog = .ok (.results results))
    (grounded : ∀ result ∈ results, result.Grounded progress.memo)
    (open_ : ∀ result ∈ results, result.operator.isLogical = true →
      ¬ progress.memo.Reached expression.group .explore)
    (step_eq : RuleJob.step ⟨rule, id⟩ context progress = .ok (after, outcome)) :
    outcome = .ok .done ∧
      ((expression.applied.contains rule = true ∧
        after.memo = progress.memo.marked expression rule) ∨
      (Memo.Grown (some rule) (fun made => ∃ result ∈ results, result.Makes expression.group made)
        (progress.memo.marked expression rule) after.memo ∧
          ∀ result ∈ results, after.memo.StoresResult result)) := by
  rcases step_cases consistent stored lookup_eq apply_eq step_eq with
    ⟨outcome_eq, known, memo_eq⟩ | ⟨count, inserted, outcome_eq, inserted_eq⟩
  · exact ⟨outcome_eq, .inl ⟨known, memo_eq⟩⟩
  · have marked_consistent : (progress.memo.marked expression rule).Consistent :=
      consistent.marked stored
    have marked_closed : (progress.memo.marked expression rule).Closed :=
      closed.marked consistent stored
    have size_le : progress.memo.groups.size ≤
        (progress.memo.marked expression rule).groups.size := Nat.le_refl _
    have marked_grounded (result : RuleResult) (result_mem : result ∈ results) :
        result.Grounded (progress.memo.marked expression rule) :=
      (grounded result result_mem).mono size_le
    rcases @insertAll_spec rule expression.group (progress.memo.marked expression rule)
      marked_consistent marked_closed (consistent.group_lt stored) results marked_grounded open_ 0
      with ⟨larger, total, stored_eq, grown, all_stored⟩
    rw [stored_eq] at inserted_eq
    cases inserted_eq
    exact ⟨outcome_eq, .inr ⟨grown, all_stored⟩⟩

end RuleJob

/-! ## The discipline of the standard rules -/

/-- A transformation is settled for a stored expression over explored groups. -/
def Memo.Finished (catalog : Catalog) (memo : Memo) (number : RuleId) (id : ExprId) : Prop :=
  ∀ rule, (number, rule) ∈ numberedTransformations → ∃ expression,
    memo.expression? id = some expression ∧
      (∀ child ∈ expression.children, memo.Reached child .explore) ∧
        memo.Settled catalog expression rule

section Standard

open Memo

variable {catalog : Catalog} {config : SearchConfig} {memo larger : Memo} {expression : Expression}

theorem Rules.transformation_unique {number : RuleId} {first second : Rule}
    (first_mem : (number, first) ∈ numberedTransformations)
    (second_mem : (number, second) ∈ numberedTransformations) : first = second := by
  have lookup_eq := Rulebook.lookup_transformation first_mem
  rw [Rulebook.lookup_transformation second_mem] at lookup_eq
  cases lookup_eq
  rfl

theorem Memo.Finished.mono {number : RuleId} {id : ExprId} (saturating : memo.Saturating catalog)
    (larger_saturating : larger.Saturating catalog) (extension : memo.Extends larger)
    (finished : memo.Finished catalog number id) : larger.Finished catalog number id := by
  intro rule pair_mem
  rcases finished rule pair_mem with ⟨expression, stored, children, settled⟩
  rcases extension.expressions stored with ⟨applied, larger_stored, -⟩
  have id_eq := saturating.consistent.numbered stored
  subst id_eq
  refine ⟨_, larger_stored, fun child child_mem => extension.reached (children child child_mem), ?_⟩
  exact settled.mono (Rules.steady_of_mem pair_mem)
    ⟨extension, saturating.consistent, saturating.closed, larger_saturating.consistent,
      larger_saturating.closed, saturating.below⟩ stored larger_stored rfl children

/-- A rule is passed over for an expression only if it is settled already. -/
theorem Memo.Saturating.passed_over {number : RuleId} {rule : Rule} {job : ExpressionJob}
    (saturating : memo.Saturating catalog) (pair_mem : (number, rule) ∈ numberedTransformations)
    (stored : memo.expression? expression.id = some expression)
    (job_eq : job.expression = expression.id)
    (candidate_eq : job.candidate (Memo.context .standard catalog config) memo expression number =
      .ok (.ok none)) : memo.Settled catalog expression rule := by
  rcases ExpressionJob.candidate_cases candidate_eq with
    ⟨-, applied | incompatible | ⟨held, lookup_eq, cases⟩⟩ | ⟨held, promise, absurd, -⟩
  · rw [job_eq, isApplied, Memo.expression, stored] at applied
    exact (saturating.marked stored pair_mem (by simpa using applied)).2
  · rcases Rules.isCompatible_standard pair_mem incompatible with ⟨rfl, origin_eq⟩
    intro promise results _ _ _ apply_eq
    cases apply_eq
    exact saturating.commuted stored origin_eq
  · obtain rfl : rule = held := by
      have same : Rulebook.standard.lookup number = .ok held := lookup_eq
      rw [Rulebook.lookup_transformation pair_mem] at same
      cases same
      rfl
    intro promise results fits promise_eq some_promise
    rcases cases with misfit | unpromising
    · rw [job_eq] at misfit
      rcases Pattern.fits_spec saturating.consistent saturating.closed rule.pattern stored with
        ⟨answer, fits_eq, iff⟩
      rw [misfit] at fits_eq
      cases fits_eq
      exact (Bool.false_ne_true (iff.mpr fits)).elim
    · have none_promised : rule.promise expression memo catalog = .ok .none := unpromising
      rw [promise_eq] at none_promised
      cases none_promised
      exact (some_promise rfl).elim
  · cases absurd

/-- Marks alone change no reading of a memo. -/
theorem Memo.Saturating.evolves_marked (saturating : memo.Saturating catalog)
    (stored : memo.expression? expression.id = some expression) (number : RuleId) :
    memo.Evolves (memo.marked expression number) :=
  ⟨extends_marked saturating.consistent stored, saturating.consistent, saturating.closed,
    saturating.consistent.marked stored, Closed.marked saturating.consistent saturating.closed stored,
    saturating.below⟩

/-- An expression of a memo with one mark more has at most that mark more than before. -/
theorem Memo.Saturating.remarked (saturating : memo.Saturating catalog)
    (stored : memo.expression? expression.id = some expression) {number : RuleId}
    {later : Expression}
    (later_stored : (memo.marked expression number).expression? later.id = some later)
    (settled : ∀ {rule}, later.id = expression.id → (number, rule) ∈ numberedTransformations →
      expression.applied.contains number = true ∨
        ((∀ child ∈ later.children, larger.Reached child .explore) ∧
          larger.Settled catalog later rule)) :
    Remarked catalog memo larger later := by
  rcases expression?_of_marked saturating.consistent stored later_stored with
    ⟨before, before_stored, same, marks⟩
  refine ⟨before, before_stored, by rw [same]; rfl, ?_⟩
  intro other rule pair_mem isMarked
  rcases marks other isMarked with before_marked | ⟨here, rfl⟩
  · exact .inl before_marked
  · refine (settled here pair_mem).imp_left ?_
    intro known
    rw [here, stored] at before_stored
    cases before_stored
    exact known

/-- An expression that is marked once more is marked as before. -/
theorem Memo.Saturating.marked_again (saturating : memo.Saturating catalog)
    (stored : memo.expression? expression.id = some expression) {number : RuleId}
    (known : expression.applied.contains number = true) :
    (memo.marked expression number).Saturating catalog := by
  have evolves := saturating.evolves_marked stored number
  refine saturating.evolve evolves.extends_ evolves.larger_consistent evolves.larger_closed
    (fun reached => .inl reached) ?_
  exact fun later_stored => .inl (saturating.remarked stored later_stored fun _ _ => .inl known)

/-- An expression has the inputs of a logical one of its group, or none. -/
theorem Memo.Saturating.sibling (saturating : memo.Saturating catalog)
    (stored : memo.expression? expression.id = some expression) : expression.children = [] ∨
      ∃ sibling ∈ memo.logicalIn expression.group, sibling.children = expression.children := by
  cases logical : expression.operator.isLogical with
  | true =>
      exact .inr ⟨expression, (mem_logicalIn saturating.consistent).mpr ⟨stored, rfl, logical⟩, rfl⟩
  | false => exact saturating.physical stored logical

/-- A commuted join can be turned back, since the join it came from is stored. -/
theorem Memo.Saturating.commuted_fresh (saturating : memo.Saturating catalog)
    (larger_consistent : larger.Consistent) (extension : memo.Extends larger)
    (stored : memo.expression? expression.id = some expression) {group : GroupId}
    {later : Expression} {result made : RuleResult} (result_mem : result ∈ commuteJoin expression)
    (makes : result.Makes group later) (made_mem : made ∈ commuteJoin later) :
    larger.StoresResult made := by
  rcases Rules.mem_commuteJoin.mp result_mem with ⟨type, condition, left, right, join_eq, -, rfl⟩
  rcases Expression.join?_eq_some.mp join_eq with ⟨operator_eq, children_eq⟩
  have canonical : condition.canonical = condition := by
    have same := saturating.consistent.canonical stored
    rw [operator_eq] at same
    simpa [Operator.canonical, LogicalOperator.canonical] using same
  rcases makes with ⟨later_operator, -, later_children⟩
  rw [Operator.canonical, LogicalOperator.canonical, canonical] at later_operator
  rcases Rules.mem_commuteJoin.mp made_mem with ⟨_, _, _, _, later_join, -, rfl⟩
  rw [Expression.join?_eq_some.mpr ⟨later_operator, later_children⟩] at later_join
  cases later_join
  rcases extension.expressions stored with ⟨applied, kept, -⟩
  have same : expression.operator.same (Operator.logical (.join type condition)).canonical = true := by
    rw [← operator_eq, saturating.consistent.canonical stored]
    exact Operator.same_self _
  refine ⟨[left, right], rfl, { expression with applied }, ?_⟩
  rw [← children_eq]
  exact find?_of_expression? larger_consistent kept same

/-- Applying a transformation settles it. -/
theorem Memo.Saturating.transform {progress after : Progress} {number : RuleId} {rule : Rule}
    {outcome : Except Failure Step} (saturating : progress.memo.Saturating catalog)
    (pair_mem : (number, rule) ∈ numberedTransformations)
    (stored : progress.memo.expression? expression.id = some expression)
    (children : ∀ child ∈ expression.children, progress.memo.Reached child .explore)
    (unexplored : ¬ progress.memo.Reached expression.group .explore)
    (step_eq : RuleJob.step ⟨number, expression.id⟩ (Memo.context .standard catalog config) progress =
      .ok (after, outcome)) :
    outcome = .ok .done ∧ after.memo.Saturating catalog ∧ progress.memo.Extends after.memo ∧
      (∀ {group goal}, after.memo.Reached group goal → progress.memo.Reached group goal) ∧
        after.memo.Finished catalog number expression.id := by
  have steady : rule.Steady catalog := Rules.steady_of_mem pair_mem
  have marked_evolves := saturating.evolves_marked stored number
  have marked_stored : (progress.memo.marked expression number).expression? expression.id =
      some { expression with applied := expression.applied.insert number } := by
    rw [expression?_marked saturating.consistent stored, if_pos rfl]
  rcases steady.applies saturating.consistent saturating.closed stored with
    ⟨results, apply_eq, sound⟩
  have marked_apply : rule.apply { expression with applied := expression.applied.insert number }
      (progress.memo.marked expression number) catalog = .ok (.results results) := by
    rw [← apply_eq]
    exact @Rule.Steady.apply_frozen _ _ steady _ _ expression
      { expression with applied := expression.applied.insert number } marked_evolves stored
      marked_stored rfl children
  rcases RuleJob.step_spec saturating.consistent saturating.closed stored
    (Rulebook.lookup_transformation pair_mem) marked_apply
    (fun result result_mem => (sound result result_mem).1) (fun _ _ _ => unexplored) step_eq with
    ⟨outcome_eq, ⟨known, memo_eq⟩ | ⟨grown, all_stored⟩⟩
  · have after_saturating : after.memo.Saturating catalog :=
      memo_eq ▸ saturating.marked_again stored known
    refine ⟨outcome_eq, after_saturating, ?_, ?_, ?_⟩
    · rw [memo_eq]
      exact marked_evolves.extends_
    · rw [memo_eq]
      exact fun reached => reached
    · refine Finished.mono saturating after_saturating (memo_eq ▸ marked_evolves.extends_) ?_
      intro other other_mem
      exact ⟨expression, stored, saturating.marked stored other_mem known⟩
  · have extension : progress.memo.Extends after.memo :=
      marked_evolves.extends_.trans grown.extends_
    have evolves : progress.memo.Evolves after.memo := ⟨extension, saturating.consistent,
      saturating.closed, grown.consistent, grown.closed, saturating.below⟩
    have now_settled (later : Expression) (later_stored : after.memo.expression? later.id = some later)
        (same : later.unmarked = expression.unmarked) {other : Rule}
        (other_mem : (number, other) ∈ numberedTransformations) :
        after.memo.Settled catalog later other := by
      obtain rfl := Rules.transformation_unique pair_mem other_mem
      intro promise given _ _ _ given_eq
      rw [steady.apply_frozen evolves stored later_stored same children, apply_eq] at given_eq
      cases given_eq
      exact all_stored
    have after_saturating : after.memo.Saturating catalog := by
      refine saturating.evolve extension grown.consistent grown.closed
        (fun reached => .inl (grown.flags.mp reached)) ?_
      intro later later_stored
      rcases grown.fresh later_stored with before | ⟨-, origin_eq, unmarked, result, result_mem, makes⟩
      · refine .inl (saturating.remarked stored before ?_)
        intro other here other_mem
        rcases expression?_of_marked saturating.consistent stored before with
          ⟨earlier, earlier_stored, same, -⟩
        rw [here, stored] at earlier_stored
        cases earlier_stored
        refine .inr ⟨?_, now_settled later later_stored (by rw [same]; rfl) other_mem⟩
        rw [same]
        exact fun child child_mem => extension.reached (children child child_mem)
      · refine .inr ⟨unmarked, ?_, ?_⟩
        · intro commuted made made_mem
          rw [origin_eq] at commuted
          cases commuted
          have isCommutativity : (commutativityId, Rules.joinCommutativity) ∈ numberedTransformations :=
            List.mem_cons_self
          obtain rfl := Rules.transformation_unique pair_mem isCommutativity
          cases apply_eq
          exact saturating.commuted_fresh grown.consistent extension stored result_mem makes made_mem
        · intro isPhysical
          rcases makes.operator with ⟨operator, operator_mem, operator_eq⟩
          rw [operator_eq, Operator.isLogical_canonical,
            (sound result result_mem).2 operator operator_mem] at isPhysical
          cases isPhysical
    refine ⟨outcome_eq, after_saturating, extension, fun reached => grown.flags.mp reached, ?_⟩
    intro other other_mem
    rcases extension.expressions stored with ⟨applied, kept, -⟩
    exact ⟨_, kept, fun child child_mem => extension.reached (children child child_mem),
      now_settled { expression with applied } kept rfl other_mem⟩

/-- An implementation only adds physical expressions over inputs of logical ones. -/
theorem Memo.Saturating.implement {progress after : Progress} {number : RuleId} {rule : Rule}
    {outcome : Except Failure Step} (saturating : progress.memo.Saturating catalog)
    (pair_mem : (number, rule) ∈ numberedImplementations)
    (stored : progress.memo.expression? expression.id = some expression)
    (step_eq : RuleJob.step ⟨number, expression.id⟩ (Memo.context .standard catalog config) progress =
      .ok (after, outcome)) :
    outcome = .ok .done ∧ after.memo.Saturating catalog ∧ progress.memo.Extends after.memo ∧
      ∀ {group goal}, after.memo.Reached group goal → progress.memo.Reached group goal := by
  have marked_evolves := saturating.evolves_marked stored number
  have other_number {other : Rule} (other_mem : (number, other) ∈ numberedTransformations) : False :=
    phases_disjoint pair_mem other_mem
  have not_commutativity : number ≠ commutativityId := by
    rintro rfl
    exact other_number List.mem_cons_self
  rcases @Rules.implementation_applies (progress.memo.marked expression number) catalog
    { expression with applied := expression.applied.insert number } number rule pair_mem with
    ⟨results, apply_eq, runs⟩
  have grounded (result : RuleResult) (result_mem : result ∈ results) :
      result.Grounded progress.memo :=
    (runs result result_mem).implements.grounded fun child child_mem =>
      saturating.closed stored child child_mem
  have open_ : ∀ result ∈ results, result.operator.isLogical = true →
      ¬ progress.memo.Reached expression.group .explore := by
    intro result result_mem logical
    rw [(runs result result_mem).implements.isLogical] at logical
    cases logical
  rcases RuleJob.step_spec saturating.consistent saturating.closed stored
    (Rulebook.lookup_implementation pair_mem) apply_eq grounded open_ step_eq with
    ⟨outcome_eq, ⟨known, memo_eq⟩ | ⟨grown, -⟩⟩
  · exact ⟨outcome_eq, memo_eq ▸ saturating.marked_again stored known,
      memo_eq ▸ marked_evolves.extends_, by rw [memo_eq]; exact id⟩
  · have extension : progress.memo.Extends after.memo :=
      marked_evolves.extends_.trans grown.extends_
    refine ⟨outcome_eq, ?_, extension, fun reached => grown.flags.mp reached⟩
    refine saturating.evolve extension grown.consistent grown.closed
      (fun reached => .inl (grown.flags.mp reached)) ?_
    intro later later_stored
    rcases grown.fresh later_stored with before | ⟨-, origin_eq, unmarked, result, result_mem, makes⟩
    · exact .inl (saturating.remarked stored before fun _ other_mem =>
        (other_number other_mem).elim)
    · refine .inr ⟨unmarked, ?_, ?_⟩
      · intro commuted
        rw [origin_eq] at commuted
        cases commuted
        exact (not_commutativity rfl).elim
      · intro _
        rcases runs result result_mem with ⟨operator, physical, inputs, -, -, -, rfl, taken⟩
        rcases makes with ⟨-, group_eq, children_eq⟩
        rcases taken with rfl | ⟨rfl, -⟩
        · -- the inputs are those of the expression, or of a logical one that it shares them with
          rcases saturating.sibling stored with none | ⟨sibling, sibling_mem, siblings⟩
          · exact .inl (children_eq.trans none)
          · rcases (mem_logicalIn saturating.consistent).mp sibling_mem with
              ⟨sibling_stored, sibling_group, sibling_logical⟩
            rcases extension.expressions sibling_stored with ⟨applied, kept, -⟩
            refine .inr ⟨{ sibling with applied }, ?_, siblings.trans children_eq.symm⟩
            exact (mem_logicalIn grown.consistent).mpr
              ⟨kept, sibling_group.trans group_eq.symm, sibling_logical⟩
        · exact .inl children_eq

/-- A group may be marked once its logical expressions are settled. -/
theorem Memo.Saturating.mark {id : GroupId} {goal : Goal} {group : Group}
    (saturating : memo.Saturating catalog) (found : memo.group? id = some group)
    (explored : goal = .implement → memo.Reached id .explore)
    (settled : goal = .explore → ∀ expression ∈ memo.logicalIn id,
      (∀ child ∈ expression.children, memo.Reached child .explore) ∧
        ∀ {number rule}, (number, rule) ∈ numberedTransformations →
          memo.Settled catalog expression rule) :
    (memo.flagged id group goal).Saturating catalog := by
  refine saturating.evolve (extends_flagged found) (saturating.consistent.flagged found)
    (Closed.flagged saturating.closed) ?_ ?_
  · intro other wanted reached
    rcases (reached_flagged found).mp reached with before | ⟨rfl, rfl⟩
    · exact .inl before
    · refine .inr ?_
      cases wanted with
      | implement => exact explored rfl
      | explore =>
          refine ⟨?_, settled rfl⟩
          have marked_found : (memo.flagged other group .explore).group? other =
              some (group.mark .explore) := by rw [group?_flagged found, if_pos rfl]
          rw [Frozen, logicalIn_eq found, logicalIn_eq marked_found]
          rfl
  · intro later later_stored
    exact .inl ⟨later, later_stored, rfl, fun _ isMarked => .inl isMarked⟩

/-- A group may be marked once the rules are done with its logical expressions. -/
theorem Memo.Saturating.mark_finished {id : GroupId} {goal : Goal} {group : Group}
    (saturating : memo.Saturating catalog) (found : memo.group? id = some group)
    (explored : goal = .implement → memo.Reached id .explore)
    (finished : ∀ member ∈ group.logical, ∃ expression, memo.Ripe member goal expression ∧
      ∀ number ∈ (Memo.context .standard catalog config).phase goal,
        memo.Finished catalog number member) :
    (memo.flagged id group goal).Saturating catalog := by
  refine saturating.mark found explored ?_
  rintro rfl expression expression_mem
  rw [logicalIn_eq found] at expression_mem
  rcases List.mem_filterMap.mp expression_mem with ⟨member, member_mem, stored⟩
  rcases finished member member_mem with ⟨same, ripe, done⟩
  have same_stored := ripe.stored
  rw [stored] at same_stored
  cases same_stored
  refine ⟨ripe.children, ?_⟩
  intro number rule pair_mem
  have number_mem : number ∈ (Memo.context .standard catalog config).phase .explore := by
    rw [phase_explore]
    exact List.mem_map_of_mem pair_mem
  rcases done number number_mem rule pair_mem with ⟨found_again, stored_again, -, settled⟩
  rw [stored] at stored_again
  cases stored_again
  exact settled

/-- The standard rules respect what it means to be settled. -/
theorem standard_discipline {top : Goal} : Discipline (Memo.context .standard catalog config) top
    (Memo.Saturating catalog) (Memo.Finished catalog) where
  consistent := Saturating.consistent
  passed_over := by
    intro memo job saturating number expression number_mem ripe candidate_eq rule pair_mem
    cases goal_eq : job.goal with
    | implement =>
        rw [goal_eq, phase_implement] at number_mem
        rcases List.mem_map.mp number_mem with ⟨⟨_, other⟩, other_mem, rfl⟩
        exact (phases_disjoint other_mem pair_mem).elim
    | explore =>
        have id_eq := saturating.consistent.numbered ripe.stored
        have stored : memo.expression? expression.id = some expression := id_eq.symm ▸ ripe.stored
        exact ⟨expression, ripe.stored, goal_eq ▸ ripe.children,
          saturating.passed_over pair_mem stored id_eq.symm candidate_eq⟩
  applied := by
    intro goal number id expression outcome progress after saturating _ number_mem ripe unreached
      _ step_eq
    obtain rfl := saturating.consistent.numbered ripe.stored
    cases goal with
    | implement =>
        rw [phase_implement] at number_mem
        rcases List.mem_map.mp number_mem with ⟨⟨_, rule⟩, pair_mem, rfl⟩
        rcases saturating.implement pair_mem ripe.stored step_eq with
          ⟨rfl, after_saturating, extension, flags⟩
        refine ⟨after_saturating, extension.grows,
          fun finished => finished.mono saturating after_saturating extension, flags, ?_⟩
        intro step step_same
        cases step_same
        exact ⟨rfl, fun other other_mem => (phases_disjoint pair_mem other_mem).elim⟩
    | explore =>
        rw [phase_explore] at number_mem
        rcases List.mem_map.mp number_mem with ⟨⟨_, rule⟩, pair_mem, rfl⟩
        rcases saturating.transform pair_mem ripe.stored ripe.children unreached step_eq with
          ⟨rfl, after_saturating, extension, flags, finished⟩
        refine ⟨after_saturating, extension.grows,
          fun finished => finished.mono saturating after_saturating extension, flags, ?_⟩
        intro step step_same
        cases step_same
        exact ⟨rfl, finished⟩
  marked := by
    intro memo id goal group saturating found _ explored finished
    have marked := saturating.mark_finished found explored finished
    exact ⟨marked, fun done => done.mono saturating marked (extends_flagged found)⟩

end Standard

end Cascades
