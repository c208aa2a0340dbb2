import Cascades.Proofs.JoinGraph.Steps
import Cascades.Proofs.Search.Joins

/-!
# Enumerating joins

A search of a left-deep tree keeps its labels, besides what any search keeps. So the labels describe
the memo that the search ends with.
-/

namespace Cascades

open Rules (numberedTransformations numberedImplementations)

/-- What a search of a left-deep tree keeps. -/
structure Enumerating (links : List Link) (tables : List GraphTable) (first : Nat) (start : Memo)
    (catalog : Catalog) (memo : Memo) : Prop where
  saturating : memo.Saturating catalog
  charted : ∃ label, Chart links tables first start label memo ∧ Born links start label memo

section Enumerating

variable {links : List Link} {tables : List GraphTable} {first : Nat} {start memo larger : Memo}
  {label stemLabel : GroupId → Finset String} {catalog : Catalog} {config : SearchConfig}
  {expression : Expression}

/-! ## The start -/

theorem LeftDeep.chart (deep : LeftDeep links tables label first start) :
    Chart links tables first start label start where
  extends_ := .refl start
  drawn := by
    intro expression stored _
    have id_lt := deep.discrete.expression?_lt stored
    rcases Nat.lt_or_ge expression.id tables.length with scan | from_
    · rcases deep.scan (List.getElem?_eq_getElem scan) with ⟨known, label_eq⟩
      rw [stored] at known
      have same := Option.some.inj known
      exact .scan (List.getElem?_eq_getElem scan) (congrArg Expression.group same)
        (congrArg Expression.operator same) (congrArg Expression.children same) label_eq
    · rcases deep.join from_ id_lt with ⟨right, -, known, label_eq, disjoint, touch⟩
      rw [stored] at known
      have same := Option.some.inj known
      have group_eq : expression.group = expression.id := congrArg Expression.group same
      rw [← group_eq] at label_eq disjoint touch same
      exact .join (congrArg Expression.children same) (congrArg Expression.operator same) label_eq
        disjoint touch
  fenced := fun _ _ _ new group_lt => (Nat.lt_irrefl _ (Nat.lt_of_lt_of_le group_lt new)).elim
  plain := fun _ _ _ _ _ _ joins => (deep.of_joins joins).2.2.1
  mirrored := by
    intro stem group left right joins turned
    rcases deep.of_joins joins with ⟨stem_from, -, left_eq, right_lt⟩
    rcases deep.of_joins turned with ⟨group_from, -, right_eq, left_lt⟩
    -- both joins are of scans only, so they are the first join of the stem
    have only {later : Nat} (from_ : tables.length ≤ later)
        (left_lt : leftOf tables.length first later < tables.length) : later = tables.length := by
      rw [leftOf] at left_lt
      split at left_lt
      · assumption
      · omega
    rw [only stem_from (left_eq ▸ left_lt), only group_from (right_eq ▸ right_lt)]
  turned := fun _ explored => (deep.discrete.untouched.unreached _ _ explored).elim

theorem LeftDeep.enumerating (deep : LeftDeep links tables label first start) :
    Enumerating links tables first start catalog start where
  saturating := deep.discrete.untouched.saturating deep.consistent
  charted := ⟨label, deep.chart, fun _ new group_lt =>
    (Nat.lt_irrefl _ (Nat.lt_of_lt_of_le group_lt new)).elim⟩

/-! ## Settled rules -/

theorem Memo.storesInputs_reassociation (consistent : memo.Consistent) {groups : List GroupId}
    {stay moved last : GroupId}
    (inputs : memo.StoresInputs groups (reassociation links label stay moved last)) :
    ∃ inner, groups = [stay, inner] ∧ memo.Joins inner moved last := by
  rcases inputs.nested_join with ⟨expression, rfl, found⟩
  rw [canonical_joinAcross] at found
  exact ⟨_, rfl, Memo.joins_of_find? consistent isLogical_joinAcross found⟩

section Settled

variable (drawn : Drawn links tables label expression) (consistent : memo.Consistent)
include drawn consistent

/-- Commutativity is settled for a join once it has been turned. -/
theorem Memo.Settled.turned (settled : memo.Settled catalog expression Rules.joinCommutativity)
    {left right : GroupId} (children_eq : expression.children = [left, right]) :
    ∃ group, memo.Joins group right left := by
  rcases settled.commuted (drawn.join?_eq children_eq) rfl with ⟨groups, rfl, other, found⟩
  rw [RuleResult.operator, ← joinAcross, canonical_joinAcross] at found
  exact ⟨_, Memo.joins_of_find? consistent isLogical_joinAcross found⟩

variable (deep : LeftDeep links tables stemLabel first start)
  (chart : Chart links tables first start label memo) (born : Born links start label memo)
  (closed : memo.Closed) (legible : Scalar.Legible (links.map Link.equality))
include deep chart born closed legible

/-- Associativity is settled for a join once all inputs that can be moved have been moved. -/
theorem Memo.Settled.reassociated (settled : memo.Settled catalog expression Rules.joinAssociativity)
    (stored : memo.expression? expression.id = some expression) {outer last stay moved : Nat}
    (children_eq : expression.children = [outer, last])
    (parts : memo.Joins outer stay moved ∨ memo.Joins outer moved stay)
    (touch : Touch links (label moved) (label last)) :
    ∃ inner other, memo.Joins inner moved last ∧ memo.Joins other stay inner := by
  have result_mem := (chart.mem_associations deep born consistent closed legible stored drawn).mpr
    ⟨outer, last, stay, moved, children_eq, parts, touch, rfl⟩
  rcases settled.associated consistent closed stored (drawn.localInnerJoin?_eq children_eq) result_mem
    with ⟨groups, inputs, other, found⟩
  rcases Memo.storesInputs_reassociation consistent inputs with ⟨inner, rfl, inner_joins⟩
  rw [reassociation, RuleResult.operator, canonical_joinAcross] at found
  exact ⟨inner, _, inner_joins, Memo.joins_of_find? consistent isLogical_joinAcross found⟩

end Settled

/-! ## Steps -/

section Steps

variable (deep : LeftDeep links tables stemLabel first start)
  (legible : Scalar.Legible (links.map Link.equality))

/-- Changes without new joins keep the labels. -/
theorem Enumerating.alike (enumerating : Enumerating links tables first start catalog memo)
    (alike : memo.Alike larger) (saturating : larger.Saturating catalog)
    (turned : ∀ {stem left right}, start.Joins stem left right → larger.Reached stem .explore →
      memo.Reached stem .explore ∨ ∃ group, memo.Joins group right left) :
    Enumerating links tables first start catalog larger := by
  rcases enumerating with ⟨before, label, chart, born⟩
  exact ⟨saturating, label, chart.alike before.consistent alike turned,
    born.same_size alike.extends_ before.consistent alike.consistent alike.size_eq⟩

section Step

variable {progress after : Progress} {number : RuleId} {rule : Rule} {outcome : Except Failure Step}
  (enumerating : Enumerating links tables first start catalog progress.memo)
  (saturating : after.memo.Saturating catalog)
  (flags : ∀ {id goal}, after.memo.Reached id goal → progress.memo.Reached id goal)
  (stored : progress.memo.expression? expression.id = some expression)
  (step_eq : RuleJob.step ⟨number, expression.id⟩ (Memo.context .standard catalog config) progress =
    .ok (after, outcome))
include enumerating saturating flags stored step_eq

/-- Implementations only add physical expressions. -/
theorem Enumerating.implement (pair_mem : (number, rule) ∈ numberedImplementations) :
    Enumerating links tables first start catalog after.memo := by
  have consistent := enumerating.saturating.consistent
  have closed : progress.memo.Closed := enumerating.saturating.closed
  have marked := Memo.Alike.marked consistent closed stored number
  rcases @Rules.implementation_applies (progress.memo.marked expression number) catalog
    { expression with applied := expression.applied.insert number } number rule pair_mem with
    ⟨results, apply_eq, runs⟩
  have alike : progress.memo.Alike after.memo := by
    rcases RuleJob.step_cases consistent stored (Rulebook.lookup_implementation pair_mem) apply_eq
      step_eq with ⟨-, -, memo_eq⟩ | ⟨count, inserted, -, inserted_eq⟩
    · exact memo_eq ▸ marked
    · have keeps {memo : Memo} {result : RuleResult} (result_mem : result ∈ results)
          (alike : progress.memo.Alike memo) :
          ∃ next, RuleJob.Inserts number expression.group result memo next ∧
            progress.memo.Alike next := by
        have size_le := alike.extends_.size_le
        have implements := (runs result result_mem).implements
        cases result with
        | nested operator inputs => exact implements.elim
        | substitution operator inputs =>
            have exist : ∀ child ∈ inputs, child < memo.groups.size :=
              implements.grounded fun child child_mem =>
                Nat.lt_of_lt_of_le (closed stored child child_mem) size_le
            have group_lt := Nat.lt_of_lt_of_le (consistent.group_lt stored) size_le
            rcases Memo.Alike.inserts alike.consistent alike.closed group_lt implements.1 exist with
              ⟨next, inserted, next_alike⟩
            exact ⟨next, inserted, alike.trans next_alike⟩
      rcases RuleJob.insertAll_keeps keeps marked 0 with ⟨larger, total, stored_eq, alike⟩
      rw [stored_eq] at inserted_eq
      cases inserted_eq
      exact alike
  exact enumerating.alike alike saturating fun _ explored => .inl (flags explored)

omit flags in
include deep legible in
/-- Transformations store their results where the labels say. -/
theorem Enumerating.transform (pair_mem : (number, rule) ∈ numberedTransformations)
    (children : ∀ child ∈ expression.children, progress.memo.Reached child .explore)
    (unexplored : ¬ progress.memo.Reached expression.group .explore) :
    Enumerating links tables first start catalog after.memo := by
  rcases enumerating with ⟨before, label, chart, born⟩
  have marked := Memo.Alike.marked before.consistent before.closed stored number
  have marked_chart := chart.alike before.consistent marked fun _ explored => .inl explored
  have marked_born := born.same_size marked.extends_ before.consistent marked.consistent rfl
  let later : Expression := { expression with applied := expression.applied.insert number }
  have marked_stored : (progress.memo.marked expression number).expression? later.id = some later := by
    rw [Memo.expression?_marked before.consistent stored, if_pos rfl]
  have steady : rule.Steady catalog := Rules.steady_of_mem pair_mem
  rcases steady.applies marked.consistent marked.closed marked_stored with ⟨results, apply_eq, -⟩
  rcases RuleJob.step_cases before.consistent stored (Rulebook.lookup_transformation pair_mem) apply_eq
    step_eq with ⟨-, -, memo_eq⟩ | ⟨count, inserted, -, inserted_eq⟩
  · exact ⟨saturating, label, memo_eq ▸ marked_chart, memo_eq ▸ marked_born⟩
  · have site (logical : expression.operator.isLogical = true) {left right : Nat}
        (children_eq : expression.children = [left, right]) :
        Site tables start label (progress.memo.marked expression number) expression.group := by
      have joins : progress.memo.Joins expression.group left right :=
        ⟨expression, (Memo.mem_logicalIn before.consistent).mpr ⟨stored, rfl, logical⟩, children_eq⟩
      refine ⟨before.consistent.group_lt stored, unexplored, ?_⟩
      intro stem from_ stem_lt stem_unexplored
      exact chart.subset_stem deep before.consistent before.closed before.below joins
        (children left (by simp [children_eq])) from_ stem_lt stem_unexplored
    have keeps {memo : Memo} {result : RuleResult} (result_mem : result ∈ results)
        (kept : Stored links tables first start number label (progress.memo.marked expression number)
          memo) : ∃ next, RuleJob.Inserts number expression.group result memo next ∧
          Stored links tables first start number label (progress.memo.marked expression number) next := by
      have logical : later.operator.isLogical = true :=
        Rules.isLogical_of_result marked.consistent marked.closed marked_stored pair_mem apply_eq result_mem
      have derived := derived_of_apply deep marked_chart marked_born marked.consistent marked.closed
        legible marked_stored logical pair_mem apply_eq result_mem
      exact derived.inserts deep marked_chart marked.consistent marked.closed marked_stored logical
        (site logical) kept
    rcases RuleJob.insertAll_keeps keeps ⟨label, .refl marked.consistent marked.closed
      marked_chart, marked_born⟩ 0 with ⟨larger, total, stored_eq, wider, charted, larger_born⟩
    have same : RuleJob.insertAll number expression.group (progress.memo.marked expression number) 0
        results = .ok (larger, total, .ok ()) := stored_eq
    rw [same] at inserted_eq
    cases inserted_eq
    exact ⟨saturating, wider, charted.chart, larger_born⟩

end Step

/-- A group of the stem whose rules are done has had its join turned. -/
theorem Enumerating.turned (enumerating : Enumerating links tables first start catalog memo)
    (deep : LeftDeep links tables stemLabel first start) {stem : GroupId} {group : Group}
    (found : memo.group? stem = some group)
    (finished : ∀ member ∈ group.logical,
      memo.Finished catalog Rules.commutativityId member) {left right : GroupId}
    (joins : start.Joins stem left right) : ∃ other, memo.Joins other right left := by
  rcases enumerating with ⟨saturating, label, chart, -⟩
  have consistent := saturating.consistent
  rcases joins.mono chart.extends_ deep.consistent consistent with
    ⟨expression, expression_mem, children_eq⟩
  rcases chart.drawn_of_mem consistent expression_mem with ⟨-, drawn⟩
  rw [Memo.logicalIn_eq found] at expression_mem
  rcases List.mem_filterMap.mp expression_mem with ⟨member, member_mem, stored⟩
  rcases finished member member_mem Rules.joinCommutativity List.mem_cons_self with
    ⟨same, same_stored, -, settled⟩
  rw [stored] at same_stored
  cases same_stored
  exact settled.turned drawn consistent children_eq

include deep legible

/-- The standard rules keep the labels. -/
theorem enumerating_discipline {top : Goal} :
    Discipline (Memo.context .standard catalog config) top
    (Enumerating links tables first start catalog) (Memo.Finished catalog) where
  consistent := fun kept => kept.saturating.consistent
  passed_over := fun kept => (@standard_discipline catalog config top).passed_over kept.saturating
  applied := by
    intro goal number id expression outcome progress after kept within number_mem ripe unreached
      matched step_eq
    rcases (@standard_discipline catalog config top).applied kept.saturating within number_mem ripe
      unreached matched step_eq with ⟨saturating, grows, persists, flags, settles⟩
    refine ⟨?_, grows, persists, flags, settles⟩
    obtain rfl := kept.saturating.consistent.numbered ripe.stored
    cases goal with
    | implement =>
        rw [phase_implement] at number_mem
        rcases List.mem_map.mp number_mem with ⟨⟨_, rule⟩, pair_mem, rfl⟩
        exact kept.implement saturating flags ripe.stored step_eq pair_mem
    | explore =>
        rw [phase_explore] at number_mem
        rcases List.mem_map.mp number_mem with ⟨⟨_, rule⟩, pair_mem, rfl⟩
        exact kept.transform deep legible saturating ripe.stored step_eq pair_mem ripe.children
          unreached
  marked := by
    intro memo id goal group kept found unreached explored finished
    have consistent := kept.saturating.consistent
    rcases (@standard_discipline catalog config top).marked kept.saturating found unreached explored
      finished with ⟨saturating, persists⟩
    refine ⟨?_, persists⟩
    refine kept.alike (.flagged consistent kept.saturating.closed found goal) saturating ?_
    intro stem left right joins stem_explored
    rcases (Memo.reached_flagged found).mp stem_explored with before | ⟨rfl, rfl⟩
    · exact .inl before
    · refine .inr (kept.turned deep found ?_ joins)
      intro member member_mem
      rcases finished member member_mem with ⟨expression, -, done⟩
      refine done Rules.commutativityId ?_
      rw [phase_explore]
      exact List.mem_cons_self

end Steps

end Enumerating

end Cascades
