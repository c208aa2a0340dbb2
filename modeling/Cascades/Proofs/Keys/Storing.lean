import Cascades.Proofs.Keys.Placement
import Cascades.Proofs.Rules.Descent
import Cascades.Proofs.Search.Integrity
import Cascades.Proofs.Search.Operations

/-!
# Storing operators where they may stand

An operator that may stand in a group may still stand there when the memo has grown, because tables
below groups are never lost, and none are gained where equal tables are demanded. So storing such an
operator, in its group or with the tables below it in a group of its own, leaves every operator where
it may stand.
-/

namespace Cascades

/-- A logical operator may stand in a group over its inputs; of a physical one nothing is asked. -/
def Operator.Placed (strict linked : Prop) (tables : List String) (operator : Operator)
    (inputs : List (List String)) : Prop :=
  ∀ logical, operator = .logical logical → logical.Placed strict linked tables inputs

theorem Operator.Placed.canonical {strict linked : Prop} {tables : List String}
    {operator : Operator} {inputs : List (List String)}
    (placed : operator.Placed strict linked tables inputs) :
    operator.canonical.Placed strict linked tables inputs := by
  intro logical same
  cases operator with
  | logical operator =>
      cases same
      exact (placed operator rfl).canonical
  | physical operator => cases same

namespace Memo

/-- A memo in which every expression may stand in its group over its inputs. -/
structure Arranged (strict linked : Prop) (memo : Memo) : Prop where
  consistent : memo.Consistent
  closed : strict → memo.Closed
  placed : ∀ {id expression}, memo.expression? id = some expression →
    expression.operator.Placed strict linked (memo.tablesBelow expression.group)
      (expression.children.map memo.tablesBelow)

/-- A larger memo with the same tables below the groups, if equal tables are demanded. -/
structure Follows (strict : Prop) (memo larger : Memo) : Prop where
  grows : memo.Grows larger
  steady : strict → ∀ id < memo.groups.size, larger.tablesBelow id ⊆ memo.tablesBelow id

variable {strict linked : Prop} {memo larger : Memo} {group : GroupId} {operator : Operator}
  {children : List GroupId} {origin : Option RuleId}

namespace Follows

theorem refl (memo : Memo) : memo.Follows strict memo :=
  ⟨.refl memo, fun _ _ _ => List.Subset.refl _⟩

theorem trans {largest : Memo} (early : memo.Follows strict larger)
    (late : larger.Follows strict largest) : memo.Follows strict largest where
  grows := early.grows.trans late.grows
  steady := fun demand id exists_ => List.Subset.trans
    (late.steady demand id (Nat.lt_of_lt_of_le exists_ early.grows.size_le))
    (early.steady demand id exists_)

variable (follows : memo.Follows strict larger) (consistent : memo.Consistent)
  (larger_consistent : larger.Consistent)
include follows consistent larger_consistent

theorem tables_subset (id : GroupId) : memo.tablesBelow id ⊆ larger.tablesBelow id :=
  Within.tablesBelow_subset follows.grows.within consistent larger_consistent id

theorem inputs_subset : List.Forall₂ (· ⊆ ·) (children.map memo.tablesBelow)
    (children.map larger.tablesBelow) := by
  rw [List.forall₂_map_left_iff, List.forall₂_map_right_iff, List.forall₂_same]
  exact fun child _ => follows.tables_subset consistent larger_consistent child

omit consistent larger_consistent in
theorem inputs_steady (demand : strict) (exist : ∀ child ∈ children, child < memo.groups.size) :
    List.Forall₂ (· ⊆ ·) (children.map larger.tablesBelow) (children.map memo.tablesBelow) := by
  rw [List.forall₂_map_left_iff, List.forall₂_map_right_iff, List.forall₂_same]
  exact fun child child_mem => follows.steady demand child (exist child child_mem)

/-- An operator may stay where it may stand. -/
theorem placed (implies : linked → strict)
    (exist : strict → group < memo.groups.size ∧ ∀ child ∈ children, child < memo.groups.size)
    (placed : operator.Placed strict linked (memo.tablesBelow group)
      (children.map memo.tablesBelow)) :
    operator.Placed strict linked (larger.tablesBelow group) (children.map larger.tablesBelow) :=
  fun logical same => (placed logical same).mono implies
    (follows.tables_subset consistent larger_consistent group)
    (follows.inputs_subset consistent larger_consistent)
    fun demand => ⟨follows.steady demand group (exist demand).1,
      follows.inputs_steady demand (exist demand).2⟩

end Follows

namespace Arranged

variable (arranged : memo.Arranged strict linked)

/-- What the arrangement of a memo says of a larger one. -/
theorem stays (implies : linked → strict) (follows : memo.Follows strict larger)
    (larger_consistent : larger.Consistent) {id : ExprId} {expression : Expression}
    (arranged : memo.Arranged strict linked) (stored : memo.expression? id = some expression) :
    expression.operator.Placed strict linked (larger.tablesBelow expression.group)
      (expression.children.map larger.tablesBelow) :=
  follows.placed arranged.consistent larger_consistent implies
    (fun demand => ⟨arranged.consistent.group_lt stored, arranged.closed demand stored⟩)
    (arranged.placed stored)

include arranged

/-- Marks and flags do not matter. -/
theorem remarked (implies : linked → strict) (grows : memo.Grows larger)
    (within : larger.Within memo) (larger_consistent : larger.Consistent) :
    larger.Arranged strict linked where
  consistent := larger_consistent
  closed := by
    intro demand id expression stored child child_mem
    rcases within stored with ⟨before, before_stored, -, -, children_eq⟩
    exact Nat.lt_of_lt_of_le
      (arranged.closed demand before_stored child (children_eq ▸ child_mem)) grows.size_le
  placed := by
    intro id expression stored
    rcases within stored with ⟨before, before_stored, group_eq, operator_eq, children_eq⟩
    have follows : memo.Follows strict larger := ⟨grows, fun _ id _ =>
      Within.tablesBelow_subset within larger_consistent arranged.consistent id⟩
    have stands := arranged.stays implies follows larger_consistent before_stored
    rwa [group_eq, operator_eq, children_eq] at stands

theorem marked (implies : linked → strict) {id : ExprId} {expression : Expression} {rule : RuleId}
    (stored : memo.expression? id = some expression) :
    (memo.marked expression rule).Arranged strict linked := by
  have consistent := arranged.consistent
  refine arranged.remarked implies (extends_marked consistent stored).grows ?_
    (consistent.marked stored)
  intro other later later_stored
  rcases expression?_of_marked consistent stored later_stored with ⟨before, before_stored, same, -⟩
  exact ⟨before, before_stored, by rw [same], by rw [same], by rw [same]⟩

theorem flagged (implies : linked → strict) {id : GroupId} {held : Group} (goal : Goal)
    (found : memo.group? id = some held) : (memo.flagged id held goal).Arranged strict linked :=
  arranged.remarked implies (extends_flagged found).grows
    (fun stored => ⟨_, stored, rfl, rfl, rfl⟩) (arranged.consistent.flagged found)

/-- An expression found for an operator has the same one, and so the same tables below it. -/
theorem found {below : LogicalOperator} {expression : Expression}
    (found : memo.find? (Operator.logical below).canonical children = some expression) :
    below.tablesOver (children.map memo.tablesBelow) ⊆ memo.tablesBelow expression.group ∧
      (strict → memo.tablesBelow expression.group ⊆
        below.tablesOver (children.map memo.tablesBelow)) := by
  rcases expression?_of_find? found with ⟨⟨id, stored⟩, rfl, same⟩
  rw [Operator.same_iff] at same
  cases operator_eq : expression.operator with
  | physical operator =>
      rw [operator_eq] at same
      cases same
  | logical held =>
      rw [operator_eq] at same
      have normal_eq : held.normal = below.canonical.normal := Operator.logical.inj same
      have tables_eq (inputs : List (List String)) :
          held.tablesOver inputs = below.tablesOver inputs := by
        rw [← held.tablesOver_normal, normal_eq, LogicalOperator.tablesOver_normal,
          LogicalOperator.tablesOver_canonical]
      have tables_over := tablesOver_subset arranged.consistent stored operator_eq
      rw [tables_eq] at tables_over
      refine ⟨tables_over, fun demand => ?_⟩
      have covers := (arranged.placed stored held operator_eq).covers demand
      rwa [tables_eq] at covers

section Storing

variable (implies : linked → strict)
  (exist : strict → ∀ child ∈ children, child < memo.groups.size)
include implies exist

theorem push (group_lt : group < memo.groups.size)
    (larger_consistent : (memo.push group operator children origin).Consistent)
    (placed : operator.Placed strict linked (memo.tablesBelow group)
      (children.map memo.tablesBelow)) :
    (memo.push group operator children origin).Arranged strict linked ∧
      memo.Follows strict (memo.push group operator children origin) := by
  have follows : memo.Follows strict (memo.push group operator children origin) :=
    ⟨grows_push, fun demand id _ => tablesBelow_push_subset arranged.consistent larger_consistent
      (fun same => (placed _ same).bounded demand) id⟩
  refine ⟨⟨larger_consistent, fun demand => Closed.push (arranged.closed demand) (exist demand), ?_⟩,
    follows⟩
  intro id expression stored
  rw [expression?_push] at stored
  split at stored
  · cases stored
    exact follows.placed arranged.consistent larger_consistent implies
      (fun demand => ⟨group_lt, exist demand⟩) placed
  · exact arranged.stays implies follows larger_consistent stored

/-- Storing an operator in a group where it may stand. -/
theorem addTo {insertion : Insertion}
    (placed : operator.Placed strict linked (memo.tablesBelow group)
      (children.map memo.tablesBelow))
    (added : memo.addTo group operator children origin = .ok (larger, insertion)) :
    larger.Arranged strict linked ∧ memo.Follows strict larger := by
  rcases addTo_cases added with ⟨rfl, -⟩ | ⟨rfl, group_lt, missing⟩
  · exact ⟨arranged, .refl _⟩
  · exact arranged.push implies exist group_lt
      (arranged.consistent.push group_lt (by simp) missing) placed.canonical

/-- Storing an operator with the tables below it in a group of its own. -/
theorem opened {below : LogicalOperator}
    (missing : memo.find? (Operator.logical below).canonical children = none)
    (placed : below.Placed strict linked (below.tablesOver (children.map memo.tablesBelow))
      (children.map memo.tablesBelow)) :
    (memo.opened.push memo.groups.size (Operator.logical below).canonical children
        origin).Arranged strict linked ∧
      memo.Follows strict (memo.opened.push memo.groups.size (Operator.logical below).canonical
        children origin) ∧
      below.tablesOver (children.map memo.tablesBelow) ⊆
        (memo.opened.push memo.groups.size (Operator.logical below).canonical children
          origin).tablesBelow memo.groups.size ∧
      (strict → (memo.opened.push memo.groups.size (Operator.logical below).canonical children
          origin).tablesBelow memo.groups.size ⊆
        below.tablesOver (children.map memo.tablesBelow)) := by
  have consistent := arranged.consistent
  have larger_consistent : (memo.opened.push memo.groups.size
      (Operator.logical below).canonical children origin).Consistent :=
    consistent.opened.push (by simp) (by simp) missing
  let larger := memo.opened.push memo.groups.size (Operator.logical below).canonical children origin
  have tables (demand : strict) := tablesBelow_opened_push consistent larger_consistent
    (arranged.closed demand) (exist demand)
  have follows : memo.Follows strict larger :=
    ⟨extends_opened.grows.trans grows_push, fun demand => (tables demand).2⟩
  have inputs_subset : List.Forall₂ (· ⊆ ·) (children.map memo.tablesBelow)
      (children.map larger.tablesBelow) :=
    follows.inputs_subset consistent larger_consistent
  have tables_over : below.tablesOver (children.map memo.tablesBelow) ⊆
      larger.tablesBelow memo.groups.size := by
    have stored : larger.expression? memo.expressions.size =
        some ⟨memo.expressions.size, memo.groups.size, (Operator.logical below).canonical,
          children, origin, .empty⟩ := by
      rw [expression?_push]
      exact if_pos rfl
    have larger_over := tablesOver_subset larger_consistent stored rfl
    rw [LogicalOperator.tablesOver_canonical] at larger_over
    exact List.Subset.trans (LogicalOperator.tablesOver_mono inputs_subset) larger_over
  have covers (demand : strict) : larger.tablesBelow memo.groups.size ⊆
      below.tablesOver (children.map memo.tablesBelow) := by
    have own := (tables demand).1
    rwa [LogicalOperator.tablesOver_canonical] at own
  have stands : (Operator.logical below).canonical.Placed strict linked
      (larger.tablesBelow memo.groups.size) (children.map larger.tablesBelow) := by
    refine Operator.Placed.canonical fun logical same => ?_
    cases same
    exact placed.mono implies tables_over inputs_subset
      fun demand => ⟨covers demand, follows.inputs_steady demand (exist demand)⟩
  have larger_arranged : larger.Arranged strict linked := by
    refine ⟨larger_consistent, fun demand => ?_, ?_⟩
    · exact Closed.push (Closed.opened (arranged.closed demand)) fun child child_mem =>
        Nat.lt_of_lt_of_le (exist demand child child_mem) extends_opened.size_le
    · intro id expression stored
      rw [expression?_push] at stored
      split at stored
      · cases stored
        exact stands
      · exact arranged.stays implies follows larger_consistent stored
  exact ⟨larger_arranged, follows, tables_over, covers⟩

/-- Storing an operator with the tables below it in a group of its own, or finding it. -/
theorem add {below : LogicalOperator}
    (placed : below.Placed strict linked (below.tablesOver (children.map memo.tablesBelow))
      (children.map memo.tablesBelow)) :
    (memo.add (.logical below) children origin).1.Arranged strict linked ∧
      memo.Follows strict (memo.add (.logical below) children origin).1 ∧
      below.tablesOver (children.map memo.tablesBelow) ⊆
        (memo.add (.logical below) children origin).1.tablesBelow
          (memo.add (.logical below) children origin).2.1 ∧
      (strict → (memo.add (.logical below) children origin).1.tablesBelow
          (memo.add (.logical below) children origin).2.1 ⊆
        below.tablesOver (children.map memo.tablesBelow)) := by
  rw [Memo.add]
  cases found : memo.find? (Operator.logical below).canonical children with
  | some expression => exact ⟨arranged, .refl memo, arranged.found found⟩
  | none => exact arranged.opened implies exist found placed

end Storing

end Arranged

theorem Consistent.group_add_lt (consistent : memo.Consistent) (operator : Operator)
    (children : List GroupId) (origin : Option RuleId) :
    (memo.add operator children origin).2.1 < (memo.add operator children origin).1.groups.size := by
  rw [Memo.add]
  cases found : memo.find? operator.canonical children with
  | some expression => exact consistent.group_lt (consistent.find?_id found)
  | none => simp

end Memo

/-! ## Results of rules -/

/--
A result whose operator may stand in a group. If it has a new input, the operator of this one may
stand where there are just the tables below it.
-/
inductive RuleResult.Placed (strict linked : Prop) (tables : GroupId → List String)
    (group : GroupId) : RuleResult → Prop
  | substitution {operator : Operator} {children : List GroupId} :
      operator.Placed strict linked (tables group) (children.map tables) →
        Placed strict linked tables group (.substitution operator children)
  | nested {top : Operator} {below : LogicalOperator} {groups children : List GroupId} :
      below.Placed strict linked (below.tablesOver (children.map tables)) (children.map tables) →
        top.Placed strict linked (tables group)
            (groups.map tables ++ [below.tablesOver (children.map tables)]) →
          Placed strict linked tables group
            (.nested top (groups.map .group ++ [.fresh (.logical below) (children.map .group)]))

namespace RuleJob

open Memo

variable {rule : RuleId} {origin : Option RuleId} {strict linked : Prop} {start memo : Memo}
  {group : GroupId} {result : RuleResult} {results : List RuleResult}

/-- Groups among sub-plans exist, or else nothing is stored. -/
theorem storeAll_groups_append (groups : List GroupId) (plans : List Subplan) :
    (∃ failure, storeAll rule memo (groups.map .group ++ plans) = (memo, .error failure)) ∨
      ((∀ group ∈ groups, group < memo.groups.size) ∧
        storeAll rule memo (groups.map .group ++ plans) =
          ((storeAll rule memo plans).1, (storeAll rule memo plans).2.map (groups ++ ·))) := by
  induction groups with
  | nil =>
      refine .inr ⟨by simp, ?_⟩
      rw [List.map_nil, List.nil_append]
      rcases storeAll rule memo plans with ⟨stored, failure | made⟩ <;> rfl
  | cons group rest ih =>
      rw [List.map_cons, List.cons_append, storeAll, store]
      cases checked : checkGroups rule memo [group] with
      | error failure => exact .inl ⟨failure, rfl⟩
      | ok =>
          have exists_ := exist_of_checkGroups checked group List.mem_cons_self
          rcases ih with ⟨failure, rest_eq⟩ | ⟨exist, rest_eq⟩
          · exact .inl ⟨failure, by simp only [Except.map, rest_eq]⟩
          · refine .inr ⟨List.forall_mem_cons.mpr ⟨exists_, exist⟩, ?_⟩
            simp only [Except.map, rest_eq]
            rcases storeAll rule memo plans with ⟨stored, failure | made⟩ <;> rfl

/-- A result with one new input, over groups, stores this input or nothing at all. -/
theorem prepare_nested (groups children : List GroupId) (top below : Operator) :
    (∃ failure, prepare rule memo (.nested top
        (groups.map .group ++ [.fresh below (children.map .group)])) = (memo, .error failure)) ∨
      ((∀ group ∈ groups, group < memo.groups.size) ∧
        (∀ child ∈ children, child < memo.groups.size) ∧
        prepare rule memo (.nested top (groups.map .group ++ [.fresh below (children.map .group)])) =
          ((memo.add below children (some rule)).1,
            .ok (top, groups ++ [(memo.add below children (some rule)).2.1]))) := by
  rw [prepare]
  rcases storeAll_groups_append groups [.fresh below (children.map .group)] with
    ⟨failure, stored_eq⟩ | ⟨exist, stored_eq⟩
  · exact .inl ⟨failure, by rw [stored_eq]; rfl⟩
  · rw [stored_eq, storeAll, store]
    rcases storeAll_groups_append children [] with ⟨failure, inputs_eq⟩ | ⟨inputs_exist, inputs_eq⟩
    · rw [List.append_nil] at inputs_eq
      exact .inl ⟨failure, by rw [inputs_eq]; rfl⟩
    · rw [List.append_nil, storeAll] at inputs_eq
      refine .inr ⟨exist, inputs_exist, ?_⟩
      rw [inputs_eq]
      simp only [Except.map, List.append_nil, storeAll]

section Placed

variable (implies : linked → strict) (start_consistent : start.Consistent)
  (group_lt : group < start.groups.size)
include implies start_consistent group_lt

/-- A result with one new input, of an earlier memo, may still be stored. -/
theorem nested_arranged {top : Operator} {below : LogicalOperator} {groups children : List GroupId}
    (exist : strict → (∀ other ∈ groups, other < start.groups.size) ∧
      ∀ child ∈ children, child < start.groups.size)
    (below_placed : below.Placed strict linked (below.tablesOver (children.map start.tablesBelow))
      (children.map start.tablesBelow))
    (placed : top.Placed strict linked (start.tablesBelow group)
      (groups.map start.tablesBelow ++ [below.tablesOver (children.map start.tablesBelow)]))
    (groups_exist : ∀ other ∈ groups, other < memo.groups.size)
    (inputs_exist : ∀ child ∈ children, child < memo.groups.size)
    (arranged : memo.Arranged strict linked) (follows : start.Follows strict memo) :
    ((memo.add (.logical below) children origin).1.Arranged strict linked ∧
        start.Follows strict (memo.add (.logical below) children origin).1) ∧
      ∀ {next : Memo} {insertion : Insertion},
        (memo.add (.logical below) children origin).1.addTo group top
            (groups ++ [(memo.add (.logical below) children origin).2.1]) origin =
          .ok (next, insertion) →
            next.Arranged strict linked ∧ start.Follows strict next := by
  have inputs_subset : List.Forall₂ (· ⊆ ·) (children.map start.tablesBelow)
      (children.map memo.tablesBelow) :=
    follows.inputs_subset start_consistent arranged.consistent
  have inputs_steady (demand : strict) := follows.inputs_steady demand (exist demand).2
  have below_stands : below.Placed strict linked
      (below.tablesOver (children.map memo.tablesBelow)) (children.map memo.tablesBelow) :=
    below_placed.mono implies (LogicalOperator.tablesOver_mono inputs_subset) inputs_subset
      fun demand => ⟨LogicalOperator.tablesOver_mono (inputs_steady demand), inputs_steady demand⟩
  rcases @Arranged.add _ _ _ _ origin arranged implies (fun _ => inputs_exist) _ below_stands with
    ⟨stored_arranged, stored_follows, tables_over, covers⟩
  have since := follows.trans stored_follows
  refine ⟨⟨stored_arranged, since⟩, fun added => ?_⟩
  have exist_all (child : GroupId) (child_mem : child ∈ groups ++
      [(memo.add (.logical below) children origin).2.1]) :
      child < (memo.add (.logical below) children origin).1.groups.size := by
    rcases List.mem_append.mp child_mem with old | new
    · exact Nat.lt_of_lt_of_le (groups_exist child old) stored_follows.grows.size_le
    · rw [List.mem_singleton.mp new]
      exact arranged.consistent.group_add_lt _ _ _
  refine (stored_arranged.addTo implies (fun _ => exist_all) (fun logical same => ?_)
    added).imp_right since.trans
  rw [List.map_append, List.map_singleton]
  apply (placed logical same).mono implies
  · exact since.tables_subset start_consistent stored_arranged.consistent group
  · apply List.rel_append (since.inputs_subset start_consistent stored_arranged.consistent)
    exact .cons (List.Subset.trans (LogicalOperator.tablesOver_mono inputs_subset) tables_over) .nil
  · intro demand
    refine ⟨since.steady demand group group_lt, ?_⟩
    apply List.rel_append (since.inputs_steady demand (exist demand).1)
    exact .cons (List.Subset.trans (covers demand)
      (LogicalOperator.tablesOver_mono (inputs_steady demand))) .nil

/-- A result of an earlier memo may still be stored. -/
theorem prepare_arranged (grounded : strict → result.Grounded start)
    (placed : result.Placed strict linked start.tablesBelow group)
    (arranged : memo.Arranged strict linked) (follows : start.Follows strict memo) :
    ((prepare rule memo result).1.Arranged strict linked ∧
        start.Follows strict (prepare rule memo result).1) ∧
      ∀ {middle next : Memo} {groups : List GroupId} {insertion : Insertion},
        prepare rule memo result = (middle, .ok (result.operator, groups)) →
          middle.addTo group result.operator groups (some rule) = .ok (next, insertion) →
            next.Arranged strict linked ∧ start.Follows strict next := by
  cases placed with
  | @substitution operator children placed =>
      refine ⟨⟨arranged, follows⟩, fun prepared added => ?_⟩
      rw [prepare] at prepared
      cases checked : checkGroups rule memo children with
      | error failure =>
          rw [checked] at prepared
          cases prepared
      | ok =>
          rw [checked] at prepared
          cases prepared
          have stands := follows.placed start_consistent arranged.consistent implies
            (fun demand => ⟨group_lt, grounded demand⟩) placed
          rcases arranged.addTo implies (fun _ => exist_of_checkGroups checked) stands added with
            ⟨next_arranged, next_follows⟩
          exact ⟨next_arranged, follows.trans next_follows⟩
  | @nested top below groups children below_placed placed =>
      have parts (demand : strict) : (∀ other ∈ groups, other < start.groups.size) ∧
          ∀ child ∈ children, child < start.groups.size := by
        have all : Subplan.AllGrounded start _ := grounded demand
        have last : Subplan.Grounded start _ :=
          Subplan.AllGrounded.of_mem all (List.mem_append_right _ List.mem_cons_self)
        exact ⟨fun other other_mem => Subplan.AllGrounded.of_mem all
          (List.mem_append_left _ (List.mem_map_of_mem other_mem)),
          Subplan.allGrounded_groups.mp last⟩
      rcases prepare_nested groups children top (.logical below) with
        ⟨failure, prepared_eq⟩ | ⟨groups_exist, inputs_exist, prepared_eq⟩
      · rw [prepared_eq]
        exact ⟨⟨arranged, follows⟩, fun prepared => by cases prepared⟩
      · rcases nested_arranged implies start_consistent group_lt parts below_placed placed
          groups_exist inputs_exist arranged follows with ⟨stored, next⟩
        rw [prepared_eq]
        refine ⟨stored, fun prepared added => ?_⟩
        cases prepared
        exact next added

end Placed

end RuleJob

end Cascades
