import Cascades.Proofs.JoinGraph.Mapped
import Cascades.Proofs.Search.Fixpoint

/-!
# Searching mapped memos

The results of the standard rules fit the map of a memo: commutativity and the implementations keep the
inputs and the condition of a join, associativity hands the links on to two joins, and there is nothing
to push down. So whatever a search stores is mapped, and the labels of the groups that were there before
stay the same.
-/

namespace Cascades

open Rules (numberedTransformations numberedImplementations)

variable {links : List Link} {tables : List GraphTable} {label wider : GroupId → Finset String}
  {memo larger : Memo} {group : GroupId} {expression : Expression} {result : RuleResult}
  {catalog : Catalog}

/-! ## Implementations -/

namespace Rules

/-- A single expression that scans the same table, or that joins under the same condition. -/
def Realizes (expression : Expression) : RuleResult → Prop
  | .substitution operator children => operator.scanned? = expression.operator.scanned? ∧
      operator.condition? = expression.operator.condition? ∧
        (children = expression.children ∨ (children = [] ∧ expression.operator.condition? = none))
  | .nested _ _ => False

/-- Implementations change neither the table of a scan nor the condition of a join. -/
theorem Runs.realizes {number : RuleId} (runs : Runs number expression result) :
    Realizes expression result := by
  rcases runs with ⟨operator, physical, children, operator_eq, physical_mem, -, rfl, taken⟩
  have form_eq := LogicalOperator.form_of_mem physical_mem
  subst form_eq
  rw [Realizes, operator_eq]
  refine ⟨?_, ?_, ?_⟩
  · cases physical <;> rfl
  · cases physical <;> rfl
  · refine taken.imp_right fun none => ⟨none.1, ?_⟩
    have no_inputs := none.2
    cases physical with
    | seqScan => rfl
    | _ => cases no_inputs

end Rules

/-! ## Results that fit -/

/-- A result scans or joins the tables of the group that it is given for. -/
inductive Fits (links : List Link) (tables : List GraphTable) (label : GroupId → Finset String)
    (group : GroupId) : RuleResult → Prop
  | substitution {operator : Operator} {children : List GroupId}
      (sited : Sited links tables label group operator children) :
      Fits links tables label group (.substitution operator children)
  | reassociation {outer inner : Scalar} {stay moved last : GroupId}
      (label_eq : label group = label stay ∪ (label moved ∪ label last))
      (stay_disjoint : Disjoint (label stay) (label moved ∪ label last))
      (disjoint : Disjoint (label moved) (label last))
      (outer_carries : Carries links (label stay) (label moved ∪ label last) outer)
      (inner_carries : Carries links (label moved) (label last) inner) :
      Fits links tables label group (.nested (.logical (.join .inner outer))
        [.group stay, .fresh (.logical (.join .inner inner)) [.group moved, .group last]])

theorem Fits.congr (fits : Fits links tables label group result) (grounded : result.Grounded memo)
    (group_lt : group < memo.groups.size)
    (agrees : ∀ {group : Nat}, group < memo.groups.size → wider group = label group) :
    Fits links tables wider group result := by
  cases fits with
  | substitution sited =>
      exact .substitution (sited.congr (agrees group_lt) fun child child_mem =>
        agrees (grounded child child_mem))
  | @reassociation outer inner stay moved last label_eq stay_disjoint disjoint outer_carries
      inner_carries =>
      rcases grounded with ⟨stay_lt, ⟨moved_lt, last_lt, -⟩, -⟩
      rw [← agrees group_lt, ← agrees stay_lt, ← agrees moved_lt, ← agrees last_lt] at label_eq
      rw [← agrees stay_lt, ← agrees moved_lt, ← agrees last_lt] at stay_disjoint outer_carries
      rw [← agrees moved_lt, ← agrees last_lt] at disjoint inner_carries
      exact .reassociation label_eq stay_disjoint disjoint outer_carries inner_carries

namespace Mapped

variable (mapped : Mapped links tables label memo)
include mapped

section Rules

variable (stored : memo.expression? expression.id = some expression)
include stored

/-- Commutativity exchanges the inputs of a join under the same condition. -/
theorem fits_of_commuteJoin (result_mem : result ∈ Rules.commuteJoin expression) :
    Fits links tables label expression.group result := by
  rcases Rules.mem_commuteJoin.mp result_mem with ⟨type, condition, left, right, join_eq, -, rfl⟩
  rcases Expression.join?_eq_some.mp join_eq with ⟨operator_eq, children_eq⟩
  have condition_eq : expression.operator.condition? = some condition := by
    rw [operator_eq]
    rfl
  rcases (mapped.sited stored).of_condition condition_eq children_eq with
    ⟨label_eq, disjoint, carries⟩
  exact .substitution (.join rfl (label_eq.trans (Finset.union_comm _ _)) disjoint.symm carries.symm)

/-- Associativity hands the links between the three inputs on to its two joins. -/
theorem fits_of_associations (result_mem : result ∈ Rules.associations memo expression) :
    Fits links tables label expression.group result := by
  rcases Rules.of_mem_associations result_mem with ⟨outer, first, last, inner, left, right, input,
    join_eq, input_mem, inner_eq, stay, moved, parts, result_mem⟩
  rcases Expression.join?_eq_some.mp join_eq with ⟨operator_eq, children_eq⟩
  rcases Expression.localInnerJoin?_eq_some.mp inner_eq with ⟨input_operator_eq, -, inputs_eq⟩
  have outer_eq : expression.operator.condition? = some outer := by
    rw [operator_eq]
    rfl
  have inner_condition_eq : input.operator.condition? = some inner := by
    rw [input_operator_eq]
    rfl
  rcases (mapped.sited stored).of_condition outer_eq children_eq with
    ⟨label_eq, disjoint, outer_carries⟩
  rcases (mapped.sited_of_mem input_mem).of_condition inner_condition_eq inputs_eq with
    ⟨first_eq, parts_disjoint, inner_carries⟩
  have last_lt : last < memo.groups.size := mapped.closed stored last (by simp [children_eq])
  have exist := Memo.child_lt mapped.consistent mapped.closed input_mem
  rw [inputs_eq] at exist
  -- the two ways differ in nothing but the order of the inputs
  have ordered : label first = label stay ∪ label moved ∧ Disjoint (label stay) (label moved) ∧
      Carries links (label stay) (label moved) inner ∧ moved < memo.groups.size := by
    rcases parts with ⟨rfl, rfl⟩ | ⟨rfl, rfl⟩
    · exact ⟨first_eq, parts_disjoint, inner_carries, exist moved (by simp)⟩
    · exact ⟨first_eq.trans (Finset.union_comm _ _), parts_disjoint.symm, inner_carries.symm,
        exist moved (by simp)⟩
  rcases ordered with ⟨first_eq, stay_moved, inner_carries, moved_lt⟩
  rw [first_eq, Finset.union_assoc] at label_eq
  rw [first_eq, Finset.disjoint_union_left] at disjoint
  rw [first_eq] at outer_carries
  rcases carries_reassociation stay_moved disjoint.1 disjoint.2 outer_carries inner_carries
    (mapped.mem_tablesBelow moved_lt) (mapped.mem_tablesBelow last_lt) with ⟨below, above⟩
  rw [(Rules.mem_reassociate.mp result_mem).2]
  exact .reassociation label_eq (Finset.disjoint_union_right.mpr ⟨stay_moved, disjoint.1⟩) disjoint.2
    above below

theorem filteredJoins_eq : Rules.filteredJoins memo expression = [] := by
  rw [Rules.filteredJoins]
  split
  · rename_i operator_eq _
    have kinds := (mapped.sited stored).scans_or_joins
    rw [operator_eq] at kinds
    rcases kinds with ⟨table, scanned_eq⟩ | ⟨condition, condition_eq⟩
    · cases scanned_eq
    · cases condition_eq
  · rfl

theorem projectedScans_eq : Rules.projectedScans memo expression = [] := by
  rw [Rules.projectedScans]
  split
  · rename_i operator_eq _
    have kinds := (mapped.sited stored).scans_or_joins
    rw [operator_eq] at kinds
    rcases kinds with ⟨table, scanned_eq⟩ | ⟨condition, condition_eq⟩
    · cases scanned_eq
    · cases condition_eq
  · rfl

end Rules

end Mapped

/-- A rule that never fails on a mapped expression, and whose results fit its group. -/
def Rule.Fitting (rule : Rule) (links : List Link) (tables : List GraphTable) (catalog : Catalog) : Prop :=
  ∀ {label : GroupId → Finset String} {memo : Memo} {expression : Expression},
    Mapped links tables label memo → memo.expression? expression.id = some expression →
      ∃ results, rule.apply expression memo catalog = .ok (.results results) ∧
        ∀ result ∈ results, Fits links tables label expression.group result ∧ result.Grounded memo

theorem fitting_transformation {number : RuleId} {rule : Rule}
    (pair_mem : (number, rule) ∈ numberedTransformations) : rule.Fitting links tables catalog := by
  intro label memo expression mapped stored
  have steady : rule.Steady catalog := Rules.steady_of_mem pair_mem
  rcases steady.applies mapped.consistent mapped.closed stored with ⟨results, apply_eq, grounded⟩
  refine ⟨results, apply_eq, fun result result_mem => ⟨?_, (grounded result result_mem).1⟩⟩
  simp only [Rules.numberedTransformations_eq, List.mem_cons, List.not_mem_nil, or_false,
    Prod.mk.injEq] at pair_mem
  rcases pair_mem with ⟨-, rfl⟩ | ⟨-, rfl⟩ | ⟨-, rfl⟩ | ⟨-, rfl⟩
  · cases apply_eq
    exact mapped.fits_of_commuteJoin stored result_mem
  · simp only [Rules.joinAssociativity,
      Rules.associateJoin_eq mapped.consistent mapped.closed stored] at apply_eq
    cases apply_eq
    exact mapped.fits_of_associations stored result_mem
  · simp only [Rules.predicatePushdown, mapped.filteredJoins_eq stored,
      Rules.pushPredicate_eq mapped.consistent mapped.closed stored] at apply_eq
    cases apply_eq
    cases result_mem
  · simp only [Rules.projectionPushdown, mapped.projectedScans_eq stored,
      Rules.pushProjection_eq mapped.consistent mapped.closed stored] at apply_eq
    cases apply_eq
    cases result_mem

theorem fitting_implementation {number : RuleId} {rule : Rule}
    (pair_mem : (number, rule) ∈ numberedImplementations) : rule.Fitting links tables catalog := by
  intro label memo expression mapped stored
  rcases Rules.implementation_applies pair_mem with ⟨results, apply_eq, runs⟩
  refine ⟨results, apply_eq, fun result result_mem => ?_⟩
  have realizes := (runs result result_mem).realizes
  cases result with
  | nested operator children => exact realizes.elim
  | substitution operator children =>
      rcases realizes with ⟨scanned_eq, condition_eq, children_cases⟩
      have sited := mapped.sited stored
      have exist := mapped.closed stored
      have children_eq : children = expression.children := by
        rcases children_cases with same | ⟨none, no_condition⟩
        · exact same
        · generalize expression.operator = logical at sited no_condition
          generalize expression.children = inputs at sited
          cases sited with
          | scan _ _ _ => exact none
          | join known _ _ _ =>
              rw [known] at no_condition
              cases no_condition
      rw [← children_eq] at sited exist
      refine ⟨.substitution ?_, exist⟩
      generalize expression.operator = logical at sited scanned_eq condition_eq
      cases sited with
      | scan table_mem known label_eq => exact .scan table_mem (scanned_eq.trans known) label_eq
      | join known label_eq disjoint carries =>
          exact .join (condition_eq.trans known) label_eq disjoint carries

/-! ## Storing results -/

namespace Mapped

variable (mapped : Mapped links tables label memo)
include mapped

/-- A result that fits is stored, and the memo stays mapped. -/
theorem inserts (rule : RuleId) (group_lt : group < memo.groups.size) (grounded : result.Grounded memo)
    (fits : Fits links tables label group result) : ∃ next wider,
      RuleJob.Inserts rule group result memo next ∧ Remapped links tables label memo wider next := by
  cases fits with
  | @substitution operator children sited =>
      rcases @Mapped.addTo _ _ _ _ _ _ _ mapped (some rule) group_lt grounded sited with
        ⟨next, insertion, added, next_mapped, size_eq⟩
      exact ⟨next, label, .substitution grounded added, Nat.le_of_eq size_eq.symm, fun _ => rfl,
        next_mapped⟩
  | @reassociation outer inner stay moved last label_eq stay_disjoint disjoint outer_carries
      inner_carries =>
      rcases grounded with ⟨stay_lt, ⟨moved_lt, last_lt, -⟩, -⟩
      have stay_exists : stay < memo.groups.size := stay_lt
      have moved_exists : moved < memo.groups.size := moved_lt
      have last_exists : last < memo.groups.size := last_lt
      have inner_eq : (Operator.logical (.join .inner inner)).condition? = some inner := rfl
      rcases Remapped.add mapped (some rule) moved_exists last_exists rfl inner_eq disjoint
        inner_carries with ⟨middle, below, id, wider, stored_eq, below_lt, below_eq, remapped⟩
      have exist : ∀ child ∈ [stay, below], child < middle.groups.size := by
        simpa using ⟨Nat.lt_of_lt_of_le stay_exists remapped.size_le, below_lt⟩
      have sited : Sited links tables wider group (.logical (.join .inner outer)) [stay, below] := by
        refine .join rfl ?_ ?_ ?_
        · rw [remapped.agrees group_lt, remapped.agrees stay_exists, below_eq]
          exact label_eq
        · rw [remapped.agrees stay_exists, below_eq]
          exact stay_disjoint
        · rw [remapped.agrees stay_exists, below_eq]
          exact outer_carries
      rcases @Mapped.addTo _ _ _ _ _ _ _ remapped.mapped (some rule)
        (Nat.lt_of_lt_of_le group_lt remapped.size_le) exist sited with
        ⟨next, insertion, added, next_mapped, size_eq⟩
      refine ⟨next, wider, ⟨middle, _, [stay, below], insertion, ?_, added⟩,
        remapped.trans ⟨Nat.le_of_eq size_eq.symm, fun _ => rfl, next_mapped⟩⟩
      have stay_eq : RuleJob.checkGroups rule memo [stay] = .ok () :=
        RuleJob.checkGroups_eq_ok (by simpa using stay_exists)
      have moved_eq : RuleJob.checkGroups rule memo [moved] = .ok () :=
        RuleJob.checkGroups_eq_ok (by simpa using moved_exists)
      have last_eq : RuleJob.checkGroups rule memo [last] = .ok () :=
        RuleJob.checkGroups_eq_ok (by simpa using last_exists)
      simp only [RuleJob.prepare, RuleJob.storeAll, RuleJob.store, stay_eq, moved_eq, last_eq,
        Except.map, stored_eq]

/-- All results of a standard rule are stored, and the memo stays mapped. -/
theorem insertAll (stored : memo.expression? expression.id = some expression) (number : RuleId)
    {results : List RuleResult}
    (fit : ∀ result ∈ results, Fits links tables label expression.group result ∧ result.Grounded memo)
    (added : Nat) : ∃ larger total wider,
      RuleJob.insertAll number expression.group memo added results = .ok (larger, total, .ok ()) ∧
        Remapped links tables label memo wider larger := by
  have group_lt := mapped.consistent.group_lt stored
  have keeps {stage : Memo} {result : RuleResult} (result_mem : result ∈ results)
      (kept : ∃ wider, Remapped links tables label memo wider stage) :
      ∃ next, RuleJob.Inserts number expression.group result stage next ∧
        ∃ wider, Remapped links tables label memo wider next := by
    rcases kept with ⟨wider, remapped⟩
    rcases fit result result_mem with ⟨fits, grounded⟩
    rcases remapped.mapped.inserts number (Nat.lt_of_lt_of_le group_lt remapped.size_le)
      (grounded.mono remapped.size_le) (fits.congr grounded group_lt remapped.agrees) with
      ⟨next, widest, inserted, later⟩
    exact ⟨next, inserted, widest, remapped.trans later⟩
  rcases RuleJob.insertAll_keeps keeps ⟨label, .refl mapped⟩ added with
    ⟨larger, total, inserted, wider, remapped⟩
  exact ⟨larger, total, wider, inserted, remapped⟩

end Mapped

/-! ## Searches -/

/-- What a search keeps of a memo that is mapped with a given label for its root. -/
structure Mapping (links : List Link) (tables : List GraphTable) (catalog : Catalog) (root : GroupId)
    (names : Finset String) (memo : Memo) : Prop where
  saturating : memo.Saturating catalog
  root_lt : root < memo.groups.size
  mapped : ∃ label, label root = names ∧ Mapped links tables label memo

section Searches

variable {root : GroupId} {names : Finset String} {config : SearchConfig}

/-- Applying a fitting rule keeps the map. -/
theorem Mapping.step {progress after : Progress} {number : RuleId} {rule : Rule}
    {outcome : Except Failure Step} (mapping : Mapping links tables catalog root names progress.memo)
    (saturating : after.memo.Saturating catalog)
    (stored : progress.memo.expression? expression.id = some expression)
    (lookup_eq : Rulebook.standard.lookup number = .ok rule) (fitting : rule.Fitting links tables catalog)
    (step_eq : RuleJob.step ⟨number, expression.id⟩ (Memo.context .standard catalog config) progress =
      .ok (after, outcome)) : Mapping links tables catalog root names after.memo := by
  rcases mapping with ⟨before, root_lt, label, root_eq, mapped⟩
  let later : Expression := { expression with applied := expression.applied.insert number }
  have marked := mapped.marked stored number
  have marked_stored : (progress.memo.marked expression number).expression? later.id = some later := by
    rw [Memo.expression?_marked before.consistent stored, if_pos rfl]
  rcases fitting marked marked_stored with ⟨results, apply_eq, results_fit⟩
  rcases RuleJob.step_cases before.consistent stored lookup_eq apply_eq step_eq with
    ⟨-, -, memo_eq⟩ | ⟨count, inserted, -, inserted_eq⟩
  · rw [memo_eq] at saturating ⊢
    exact ⟨saturating, root_lt, label, root_eq, marked⟩
  · rcases marked.insertAll marked_stored number results_fit 0 with
      ⟨larger, total, wider, stored_eq, remapped⟩
    have same : RuleJob.insertAll number expression.group (progress.memo.marked expression number) 0
        results = .ok (larger, total, .ok ()) := stored_eq
    rw [same] at inserted_eq
    cases inserted_eq
    exact ⟨saturating, Nat.lt_of_lt_of_le root_lt remapped.size_le, wider,
      (remapped.agrees root_lt).trans root_eq, remapped.mapped⟩

/-- The standard rules keep the map of a memo. -/
theorem mapping_discipline {top : Goal} : Discipline (Memo.context .standard catalog config) top
    (Mapping links tables catalog root names) (Memo.Finished catalog) where
  consistent := fun kept => kept.saturating.consistent
  passed_over := fun kept => (@standard_discipline catalog config top).passed_over kept.saturating
  applied := by
    intro goal number id expression outcome progress after kept within number_mem ripe unreached
      matched step_eq
    rcases (@standard_discipline catalog config top).applied kept.saturating within number_mem ripe
      unreached matched step_eq with ⟨saturating, grows, persists, flags, settles⟩
    refine ⟨?_, grows, persists, flags, settles⟩
    obtain rfl := kept.saturating.consistent.numbered ripe.stored
    cases goal with
    | implement =>
        rw [phase_implement] at number_mem
        rcases List.mem_map.mp number_mem with ⟨⟨_, rule⟩, pair_mem, rfl⟩
        exact kept.step saturating ripe.stored (Rulebook.lookup_implementation pair_mem)
          (fitting_implementation pair_mem) step_eq
    | explore =>
        rw [phase_explore] at number_mem
        rcases List.mem_map.mp number_mem with ⟨⟨_, rule⟩, pair_mem, rfl⟩
        exact kept.step saturating ripe.stored (Rulebook.lookup_transformation pair_mem)
          (fitting_transformation pair_mem) step_eq
  marked := by
    intro memo id goal group kept found unreached explored finished
    rcases (@standard_discipline catalog config top).marked kept.saturating found unreached explored
      finished with ⟨saturating, persists⟩
    refine ⟨?_, persists⟩
    rcases kept.mapped with ⟨label, root_eq, mapped⟩
    have size_eq : (memo.flagged id group goal).groups.size = memo.groups.size := by simp [Memo.flagged]
    exact ⟨saturating, size_eq ▸ kept.root_lt, label, root_eq, mapped.flagged found goal⟩

end Searches

end Cascades
