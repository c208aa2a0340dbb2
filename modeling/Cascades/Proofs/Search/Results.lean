import Cascades.Proofs.Memo.Insert
import Cascades.Search.Step

/-!
# Storing the results of a rule

A result is stored once the memo holds its shape over groups that hold its sub-plans. Storing the
results of a rule, whose groups all exist, never fails. It only adds expressions with the rule as
their origin: the tops of the results in the group of the expression that the rule was applied to,
and sub-plans.
-/

namespace Cascades

namespace Subplan

mutual

/-- The operators of a sub-plan. -/
def operators : Subplan → List Operator
  | .group _ => []
  | .fresh operator children => operator :: operatorsOf children

/-- The operators of the new inputs of a list. -/
def operatorsOf : List Subplan → List Operator
  | [] => []
  | child :: rest => child.operators ++ operatorsOf rest

end

mutual

/-- All groups that a sub-plan names exist. -/
def Grounded (memo : Memo) : Subplan → Prop
  | .group id => id < memo.groups.size
  | .fresh _ children => AllGrounded memo children

/-- All inputs of a list are grounded. -/
def AllGrounded (memo : Memo) : List Subplan → Prop
  | [] => True
  | child :: rest => child.Grounded memo ∧ AllGrounded memo rest

end

mutual

theorem Grounded.mono {memo larger : Memo} (size_le : memo.groups.size ≤ larger.groups.size) :
    (plan : Subplan) → plan.Grounded memo → plan.Grounded larger
  | .group _, exists_ => Nat.lt_of_lt_of_le exists_ size_le
  | .fresh _ children, grounded => AllGrounded.mono size_le children grounded

theorem AllGrounded.mono {memo larger : Memo} (size_le : memo.groups.size ≤ larger.groups.size) :
    (plans : List Subplan) → AllGrounded memo plans → AllGrounded larger plans
  | [], _ => trivial
  | child :: rest, ⟨first, others⟩ =>
      ⟨Grounded.mono size_le child first, AllGrounded.mono size_le rest others⟩

end

end Subplan

namespace RuleResult

/-- The operator at the top of a result. -/
def operator : RuleResult → Operator
  | .substitution operator _ => operator
  | .nested operator _ => operator

/-- The operators of a result, those of its sub-plans included. -/
def operators : RuleResult → List Operator
  | .substitution operator _ => [operator]
  | .nested operator children => operator :: Subplan.operatorsOf children

/-- The operators of the sub-plans of a result. -/
def below : RuleResult → List Operator
  | .substitution _ _ => []
  | .nested _ children => Subplan.operatorsOf children

end RuleResult

namespace Memo

mutual

/-- The memo holds a sub-plan in a group. -/
def StoresPlan (memo : Memo) : Subplan → GroupId → Prop
  | .group id, group => id = group
  | .fresh operator children, group =>
      ∃ groups, memo.StoresPlans children groups ∧
        ∃ expression, memo.find? operator.canonical groups = some expression ∧
          expression.group = group

/-- The inputs of a list are stored in the groups of another one. -/
def StoresPlans (memo : Memo) : List Subplan → List GroupId → Prop
  | [], [] => True
  | child :: rest, group :: groups => memo.StoresPlan child group ∧ memo.StoresPlans rest groups
  | _, _ => False

end

/-- The inputs of a result are groups, or sub-plans that the memo holds in groups. -/
def StoresInputs (memo : Memo) (groups : List GroupId) : RuleResult → Prop
  | .substitution _ children => groups = children
  | .nested _ children => memo.StoresPlans children groups

/-- The memo holds a result of a rule, its sub-plans included. -/
def StoresResult (memo : Memo) (result : RuleResult) : Prop :=
  ∃ groups, memo.StoresInputs groups result ∧
    ∃ expression, memo.find? result.operator.canonical groups = some expression

section Mono

variable {memo larger : Memo}

/-- What is found in a memo is found in a larger one. -/
theorem Extends.find? (extension : memo.Extends larger) (consistent : memo.Consistent)
    (larger_consistent : larger.Consistent) {operator : Operator} {children : List GroupId}
    {expression : Expression} (found : memo.find? operator children = some expression) :
    ∃ applied, larger.find? operator children = some { expression with applied } := by
  rcases expression?_of_find? found with ⟨-, rfl, same⟩
  rcases extension.expressions (consistent.find?_id found) with ⟨applied, stored, -⟩
  exact ⟨applied, find?_of_expression? larger_consistent stored same⟩

mutual

theorem StoresPlan.mono (extension : memo.Extends larger) (consistent : memo.Consistent)
    (larger_consistent : larger.Consistent) : (plan : Subplan) → {group : GroupId} →
      memo.StoresPlan plan group → larger.StoresPlan plan group
  | .group _, _, same => same
  | .fresh _ children, _, ⟨groups, stored, _, found, group_eq⟩ =>
      have ⟨_, kept⟩ := extension.find? consistent larger_consistent found
      ⟨groups, StoresPlans.mono extension consistent larger_consistent children stored, _, kept,
        group_eq⟩

theorem StoresPlans.mono (extension : memo.Extends larger) (consistent : memo.Consistent)
    (larger_consistent : larger.Consistent) : (plans : List Subplan) → {groups : List GroupId} →
      memo.StoresPlans plans groups → larger.StoresPlans plans groups
  | [], [], _ => trivial
  | child :: rest, _ :: _, ⟨first, others⟩ =>
      ⟨StoresPlan.mono extension consistent larger_consistent child first,
        StoresPlans.mono extension consistent larger_consistent rest others⟩

end

theorem StoresInputs.mono (extension : memo.Extends larger) (consistent : memo.Consistent)
    (larger_consistent : larger.Consistent) {result : RuleResult} {groups : List GroupId}
    (stored : memo.StoresInputs groups result) : larger.StoresInputs groups result := by
  cases result with
  | substitution operator children => exact stored
  | nested operator children =>
      exact StoresPlans.mono extension consistent larger_consistent children stored

theorem StoresResult.mono (extension : memo.Extends larger) (consistent : memo.Consistent)
    (larger_consistent : larger.Consistent) {result : RuleResult}
    (stored : memo.StoresResult result) : larger.StoresResult result := by
  rcases stored with ⟨groups, inputs, expression, found⟩
  rcases extension.find? consistent larger_consistent found with ⟨applied, kept⟩
  exact ⟨groups, inputs.mono extension consistent larger_consistent, _, kept⟩

end Mono

end Memo

namespace RuleResult

/-- All groups that a result names exist. -/
def Grounded (memo : Memo) : RuleResult → Prop
  | .substitution _ children => ∀ child ∈ children, child < memo.groups.size
  | .nested _ children => Subplan.AllGrounded memo children

theorem Grounded.mono {memo larger : Memo} (size_le : memo.groups.size ≤ larger.groups.size)
    {result : RuleResult} (grounded : result.Grounded memo) : result.Grounded larger := by
  cases result with
  | substitution operator children =>
      exact fun child child_mem => Nat.lt_of_lt_of_le (grounded child child_mem) size_le
  | nested operator children => exact Subplan.AllGrounded.mono size_le children grounded

/-- Storing a result for an expression of a group may add another expression. -/
def Makes (group : GroupId) (expression : Expression) : RuleResult → Prop
  | .substitution operator children =>
      expression.operator = operator.canonical ∧ expression.group = group ∧
        expression.children = children
  | .nested operator children =>
      (expression.operator = operator.canonical ∧ expression.group = group) ∨
        ∃ below ∈ Subplan.operatorsOf children, expression.operator = below.canonical

theorem Makes.operator {group : GroupId} {expression : Expression} {result : RuleResult}
    (makes : result.Makes group expression) :
    ∃ operator ∈ result.operators, expression.operator = operator.canonical := by
  cases result with
  | substitution operator children => exact ⟨operator, List.mem_cons_self, makes.1⟩
  | nested operator children =>
      rcases makes with ⟨same, -⟩ | ⟨below, below_mem, same⟩
      · exact ⟨operator, List.mem_cons_self, same⟩
      · exact ⟨below, List.mem_cons_of_mem operator below_mem, same⟩

end RuleResult

namespace RuleJob

open Memo

section Store

variable {rule : RuleId}

/-- Some operator of a sub-plan, in canonical form, is that of an expression. -/
def MadeBy (operators : List Operator) (expression : Expression) : Prop :=
  ∃ operator ∈ operators, expression.operator = operator.canonical

theorem checkGroups_eq_ok {memo : Memo} {groups : List GroupId}
    (exist : ∀ group ∈ groups, group < memo.groups.size) :
    checkGroups rule memo groups = .ok () := by
  have none : (groups.find? fun id => !memo.holdsGroup id) = none := by
    rw [List.find?_eq_none]
    intro group group_mem
    simpa [holdsGroup] using exist group group_mem
  rw [checkGroups, none]

mutual

theorem store_spec {memo : Memo} (consistent : memo.Consistent) (closed : memo.Closed) :
    (plan : Subplan) → plan.Grounded memo →
      ∃ larger group, store rule memo plan = (larger, .ok group) ∧
        Grown (some rule) (MadeBy plan.operators) memo larger ∧ larger.StoresPlan plan group ∧
          group < larger.groups.size
  | .group id, grounded => by
      have exists_ : id < memo.groups.size := grounded
      refine ⟨memo, id, ?_, .refl consistent closed, rfl, exists_⟩
      rw [store, checkGroups_eq_ok (by simpa using exists_)]
      rfl
  | .fresh operator children, grounded => by
      rcases storeAll_spec consistent closed children grounded with
        ⟨middle, groups, stored_eq, grown, plans, exist⟩
      have made : MadeBy (Subplan.operators (.fresh operator children))
          ⟨middle.expressions.size, middle.groups.size, operator.canonical, groups, some rule,
            .empty⟩ :=
        ⟨operator, List.mem_cons_self, rfl⟩
      rcases add_spec (MadeBy (Subplan.operators (.fresh operator children))) grown.consistent
        grown.closed exist fun _ => made with
        ⟨added_grown, expression, found, group_eq, -⟩
      refine ⟨_, _, by rw [store, stored_eq], ?_, ?_, ?_⟩
      · refine (grown.mono ?_).trans added_grown
        rintro made ⟨below, below_mem, same⟩
        exact ⟨below, List.mem_cons_of_mem operator below_mem, same⟩
      · exact ⟨groups, StoresPlans.mono added_grown.extends_ grown.consistent
          added_grown.consistent children plans, expression, found, group_eq⟩
      · rw [← group_eq]
        exact added_grown.consistent.group_lt (added_grown.consistent.find?_id found)

theorem storeAll_spec {memo : Memo} (consistent : memo.Consistent) (closed : memo.Closed) :
    (plans : List Subplan) → Subplan.AllGrounded memo plans →
      ∃ larger groups, storeAll rule memo plans = (larger, .ok groups) ∧
        Grown (some rule) (MadeBy (Subplan.operatorsOf plans)) memo larger ∧
          larger.StoresPlans plans groups ∧ ∀ group ∈ groups, group < larger.groups.size
  | [], _ => ⟨memo, [], by rw [storeAll], .refl consistent closed, trivial, by simp⟩
  | child :: rest, ⟨first, others⟩ => by
      rcases store_spec consistent closed child first with
        ⟨middle, group, stored_eq, grown, plan, exists_⟩
      rcases storeAll_spec grown.consistent grown.closed rest
        (Subplan.AllGrounded.mono grown.extends_.size_le rest others) with
        ⟨larger, groups, rest_eq, rest_grown, plans, exist⟩
      refine ⟨larger, group :: groups, by rw [storeAll, stored_eq]; dsimp only; rw [rest_eq], ?_,
        ⟨StoresPlan.mono rest_grown.extends_ grown.consistent rest_grown.consistent child plan,
          plans⟩, ?_⟩
      · refine (grown.mono ?_).trans (rest_grown.mono ?_)
        · rintro made ⟨below, below_mem, same⟩
          exact ⟨below, List.mem_append_left _ below_mem, same⟩
        · rintro made ⟨below, below_mem, same⟩
          exact ⟨below, List.mem_append_right _ below_mem, same⟩
      · intro other other_mem
        rcases List.mem_cons.mp other_mem with rfl | other_mem
        · exact Nat.lt_of_lt_of_le exists_ rest_grown.extends_.size_le
        · exact exist other other_mem

end

/-- A result is stored with the operator at its top. -/
theorem operator_of_prepare {memo larger : Memo} {result : RuleResult} {operator : Operator}
    {children : List GroupId}
    (prepared : prepare rule memo result = (larger, .ok (operator, children))) :
    result.operator = operator := by
  cases result with
  | substitution top groups =>
      rw [prepare] at prepared
      generalize checkGroups rule memo groups = checked at prepared
      cases checked with
      | error failure => cases prepared
      | ok =>
          cases prepared
          rfl
  | nested top plans =>
      rw [prepare] at prepared
      generalize storeAll rule memo plans = stored at prepared
      rcases stored with ⟨middle, failure | groups⟩
      · cases prepared
      · cases prepared
        rfl

/-- The sub-plans of a result are stored before its top. -/
theorem prepare_spec {memo : Memo} (consistent : memo.Consistent) (closed : memo.Closed)
    {result : RuleResult} (grounded : result.Grounded memo) :
    ∃ larger groups, prepare rule memo result = (larger, .ok (result.operator, groups)) ∧
      Grown (some rule) (fun made => ∃ operator children, result = .nested operator children ∧
        MadeBy (Subplan.operatorsOf children) made) memo larger ∧
      (∀ group ∈ groups, group < larger.groups.size) ∧ larger.StoresInputs groups result := by
  cases result with
  | substitution operator children =>
      refine ⟨memo, children, ?_, .refl consistent closed, grounded, rfl⟩
      rw [prepare, checkGroups_eq_ok grounded]
      rfl
  | nested operator children =>
      rcases storeAll_spec consistent closed children grounded with
        ⟨larger, groups, stored_eq, grown, plans, exist⟩
      refine ⟨larger, groups, by rw [prepare, stored_eq]; rfl, grown.mono ?_, exist, plans⟩
      intro made madeBy
      exact ⟨operator, children, rfl, madeBy⟩

/-- Storing results whose groups exist succeeds. -/
theorem insertAll_spec {group : GroupId} {memo : Memo} (consistent : memo.Consistent)
    (closed : memo.Closed) (exists_ : group < memo.groups.size) {results : List RuleResult}
    (grounded : ∀ result ∈ results, result.Grounded memo)
    (open_ : ∀ result ∈ results, result.operator.isLogical = true → ¬ memo.Reached group .explore)
    (added : Nat) :
    ∃ larger total, insertAll rule group memo added results = .ok (larger, total, .ok ()) ∧
      Grown (some rule) (fun made => ∃ result ∈ results, result.Makes group made) memo larger ∧
        ∀ result ∈ results, larger.StoresResult result := by
  induction results generalizing memo added with
  | nil => exact ⟨memo, added, rfl, .refl consistent closed, by simp⟩
  | cons result rest ih =>
      rcases prepare_spec consistent closed (grounded result List.mem_cons_self) with
        ⟨middle, groups, prepared, below_grown, exist, inputs⟩
      have middle_exists : group < middle.groups.size :=
        Nat.lt_of_lt_of_le exists_ below_grown.extends_.size_le
      have middle_open : result.operator.isLogical = true → ¬ middle.Reached group .explore := by
        intro logical
        rw [below_grown.flags]
        exact open_ result List.mem_cons_self logical
      have makes : ∃ other ∈ result :: rest, other.Makes group ⟨middle.expressions.size, group,
          result.operator.canonical, groups, some rule, .empty⟩ := by
        refine ⟨result, List.mem_cons_self, ?_⟩
        cases result with
        | substitution operator children => exact ⟨rfl, rfl, inputs⟩
        | nested operator children => exact Or.inl ⟨rfl, rfl⟩
      rcases addTo_spec (fun made => ∃ other ∈ result :: rest, other.Makes group made)
        below_grown.consistent below_grown.closed middle_exists exist middle_open
        (fun _ => makes) with ⟨next, insertion, inserted, top_grown, expression, found⟩
      have grown : Grown (some rule) (fun made => ∃ other ∈ result :: rest,
          other.Makes group made) memo next := by
        refine (below_grown.mono ?_).trans top_grown
        rintro made ⟨operator, children, rfl, madeBy⟩
        exact ⟨_, List.mem_cons_self, Or.inr madeBy⟩
      have size_le := grown.extends_.size_le
      rcases ih grown.consistent grown.closed (Nat.lt_of_lt_of_le exists_ size_le)
        (fun other other_mem => (grounded other (List.mem_cons_of_mem result other_mem)).mono size_le)
        (fun other other_mem logical => by
          rw [grown.flags]
          exact open_ other (List.mem_cons_of_mem result other_mem) logical)
        (if insertion.isNew then added + 1 else added) with
        ⟨larger, total, rest_inserted, rest_grown, rest_stored⟩
      refine ⟨larger, total, ?_, grown.trans (rest_grown.mono ?_), ?_⟩
      · rw [insertAll, prepared]
        simp only [inserted, bind, Except.bind]
        exact rest_inserted
      · rintro made ⟨other, other_mem, other_makes⟩
        exact ⟨other, List.mem_cons_of_mem result other_mem, other_makes⟩
      · intro other other_mem
        rcases List.mem_cons.mp other_mem with rfl | other_mem
        · refine StoresResult.mono rest_grown.extends_ grown.consistent rest_grown.consistent ?_
          exact ⟨groups, inputs.mono top_grown.extends_ below_grown.consistent
            top_grown.consistent, expression, found⟩
        · exact rest_stored other other_mem

/-- A result is stored for an expression of a group. -/
def Inserts (rule : RuleId) (group : GroupId) (result : RuleResult) (memo next : Memo) : Prop :=
  ∃ middle operator groups insertion, prepare rule memo result = (middle, .ok (operator, groups)) ∧
    middle.addTo group operator groups (some rule) = .ok (next, insertion)

/-- A result without sub-plans is stored as it is. -/
theorem Inserts.substitution {memo next : Memo} {group : GroupId} {operator : Operator}
    {children : List GroupId} {insertion : Insertion}
    (exist : ∀ child ∈ children, child < memo.groups.size)
    (added : memo.addTo group operator children (some rule) = .ok (next, insertion)) :
    Inserts rule group (.substitution operator children) memo next := by
  refine ⟨memo, operator, children, insertion, ?_, added⟩
  rw [prepare, checkGroups_eq_ok exist]
  rfl

/-- What storing any of the results keeps and achieves holds after storing all of them. -/
theorem insertAll_achieves {Kept : Memo → Prop} {Stored : Memo → RuleResult → Prop} {group : GroupId}
    {results : List RuleResult}
    (keeps : ∀ {memo result}, result ∈ results → Kept memo →
      ∃ next, Inserts rule group result memo next ∧ Kept next ∧ Stored next result ∧
        ∀ other, Stored memo other → Stored next other)
    {memo : Memo} (kept : Kept memo) (added : Nat) :
    ∃ larger total, insertAll rule group memo added results = .ok (larger, total, .ok ()) ∧
      Kept larger ∧ (∀ result ∈ results, Stored larger result) ∧
        ∀ other, Stored memo other → Stored larger other := by
  induction results generalizing memo added with
  | nil => exact ⟨memo, added, rfl, kept, by simp, fun _ stored => stored⟩
  | cons result rest ih =>
      rcases keeps List.mem_cons_self kept with ⟨next, ⟨middle, operator, groups, insertion, prepared,
        inserted⟩, next_kept, stored, persists⟩
      rcases ih (fun other_mem => keeps (List.mem_cons_of_mem result other_mem)) next_kept
        (if insertion.isNew then added + 1 else added) with
        ⟨larger, total, rest_inserted, larger_kept, rest_stored, rest_persists⟩
      refine ⟨larger, total, ?_, larger_kept, ?_, ?_⟩
      · rw [insertAll, prepared]
        simp only [inserted, bind, Except.bind]
        exact rest_inserted
      · exact List.forall_mem_cons.mpr ⟨rest_persists result stored, rest_stored⟩
      · exact fun other before => rest_persists other (persists other before)

/-- What storing any of the results keeps is kept by storing all of them. -/
theorem insertAll_keeps {Kept : Memo → Prop} {group : GroupId} {results : List RuleResult}
    (keeps : ∀ {memo result}, result ∈ results → Kept memo →
      ∃ next, Inserts rule group result memo next ∧ Kept next)
    {memo : Memo} (kept : Kept memo) (added : Nat) :
    ∃ larger total, insertAll rule group memo added results = .ok (larger, total, .ok ()) ∧
      Kept larger := by
  have achieves {memo : Memo} {result : RuleResult} (result_mem : result ∈ results)
      (kept : Kept memo) : ∃ next, Inserts rule group result memo next ∧ Kept next ∧ True ∧
        ∀ _ : RuleResult, True → True := by
    rcases keeps result_mem kept with ⟨next, inserted, next_kept⟩
    exact ⟨next, inserted, next_kept, trivial, fun _ _ => trivial⟩
  rcases @insertAll_achieves rule Kept (fun _ _ => True) group results achieves memo kept added with
    ⟨larger, total, inserted, larger_kept, -⟩
  exact ⟨larger, total, inserted, larger_kept⟩

end Store

end RuleJob

end Cascades
