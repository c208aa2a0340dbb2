import Mathlib.Algebra.BigOperators.Group.Multiset.Basic
import Mathlib.Algebra.Order.BigOperators.Group.List
import Mathlib.Data.Multiset.OrderedMonoid
import Cascades.Proofs.Rules.Algorithms
import Cascades.Proofs.Rules.Outcomes

/-!
# Balanced memos

The weight of a group is the multiset of tables that are scanned below it. In a balanced memo every
expression, a logical or a physical one, has as many inputs as its operator, and its own table and the
weights of its inputs add up to the weight of its group. Whatever a standard rule gives is balanced:
when it is stored, the groups that were there before keep their weights.
-/

namespace Cascades

open Rules (numberedTransformations numberedImplementations)

namespace Operator

/-- The number of inputs. -/
def arity : Operator → Nat
  | .logical operator => operator.arity
  | .physical operator => operator.form.arity

/-- The tables that an operator scans itself. -/
def scans (operator : Operator) : Multiset TableRef :=
  match operator.scanned? with
  | some table => {table}
  | none => 0

@[simp]
theorem arity_canonical (operator : Operator) : operator.canonical.arity = operator.arity := by
  cases operator with
  | logical operator => cases operator <;> rfl
  | physical operator => cases operator <;> rfl

@[simp]
theorem scans_canonical (operator : Operator) : operator.canonical.scans = operator.scans := by
  rw [scans, scanned?_canonical, scans]

theorem scanned?_normal (operator : Operator) : operator.normal.scanned? = operator.scanned? := by
  cases operator with
  | logical operator => cases operator <;> rfl
  | physical operator => cases operator <;> rfl

theorem scans_congr {left right : Operator} (same : left.same right = true) :
    left.scans = right.scans := by
  rw [scans, ← scanned?_normal left, same_iff.mp same, scanned?_normal, scans]

theorem scans_form (operator : PhysicalOperator) :
    (Operator.physical operator).scans = (Operator.logical operator.form).scans := by
  cases operator <;> rfl

end Operator

/-! ## Balanced memos -/

/-- An operator has as many inputs as it asks for, and scans the tables of its group with them. -/
structure Balanced (weight : GroupId → Multiset TableRef) (group : GroupId) (operator : Operator)
    (children : List GroupId) : Prop where
  arity : children.length = operator.arity
  tables : weight group = operator.scans + (children.map weight).sum

/-- A memo whose weights are the tables that are scanned below its groups. -/
structure Weighed (weight : GroupId → Multiset TableRef) (memo : Memo) : Prop where
  consistent : memo.Consistent
  closed : memo.Closed
  balanced : ∀ {id expression}, memo.expression? id = some expression →
    Balanced weight expression.group expression.operator expression.children

variable {weight wider : GroupId → Multiset TableRef} {memo larger : Memo} {group : GroupId}
  {operator : Operator} {children : List GroupId}

theorem Balanced.canonical (balanced : Balanced weight group operator children) :
    Balanced weight group operator.canonical children :=
  ⟨by simpa using balanced.arity, by simpa using balanced.tables⟩

theorem Balanced.congr (balanced : Balanced weight group operator children)
    (group_eq : wider group = weight group) (children_eq : ∀ child ∈ children, wider child = weight child) :
    Balanced wider group operator children :=
  ⟨balanced.arity, by rw [group_eq, List.map_congr_left children_eq]; exact balanced.tables⟩

namespace Weighed

/-- No input weighs more than the group. -/
theorem child_le (weighed : Weighed weight memo) {id : ExprId} {expression : Expression}
    (stored : memo.expression? id = some expression) {child : GroupId}
    (child_mem : child ∈ expression.children) : weight child ≤ weight expression.group := by
  rw [(weighed.balanced stored).tables]
  exact (List.single_le_sum (fun _ _ => Multiset.zero_le _) _ (List.mem_map_of_mem child_mem)).trans
    (Multiset.le_add_left _ _)

/-- Marks and flags weigh nothing. -/
theorem same (weighed : Weighed weight memo) (consistent : larger.Consistent)
    (closed : larger.Closed) (known : ∀ {id later}, larger.expression? id = some later →
      ∃ before, memo.expression? id = some before ∧ later.unmarked = before.unmarked) :
    Weighed weight larger where
  consistent := consistent
  closed := closed
  balanced := by
    intro id later stored
    rcases known stored with ⟨before, before_stored, same⟩
    rcases Expression.unmarked_eq_iff.mp same with ⟨-, group_eq, operator_eq, children_eq, -⟩
    rw [group_eq, operator_eq, children_eq]
    exact weighed.balanced before_stored

theorem marked (weighed : Weighed weight memo) {id : ExprId} {expression : Expression}
    (stored : memo.expression? id = some expression) (rule : RuleId) :
    Weighed weight (memo.marked expression rule) := by
  refine weighed.same (weighed.consistent.marked stored)
    (Memo.Closed.marked weighed.consistent weighed.closed stored) ?_
  intro other later later_stored
  rcases Memo.expression?_of_marked weighed.consistent stored later_stored with
    ⟨before, before_stored, same, -⟩
  exact ⟨before, before_stored, by rw [same]; rfl⟩

theorem flagged (weighed : Weighed weight memo) {held : Group} (found : memo.group? group = some held)
    (goal : Goal) : Weighed weight (memo.flagged group held goal) :=
  weighed.same (weighed.consistent.flagged found) (Memo.Closed.flagged weighed.closed)
    fun stored => ⟨_, stored, rfl⟩

theorem push (weighed : Weighed weight memo) {origin : Option RuleId}
    (group_lt : group < memo.groups.size) (exist : ∀ child ∈ children, child < memo.groups.size)
    (canonical : operator.canonical = operator) (missing : memo.find? operator children = none)
    (balanced : Balanced weight group operator children) :
    Weighed weight (memo.push group operator children origin) where
  consistent := weighed.consistent.push group_lt canonical missing
  closed := Memo.Closed.push weighed.closed exist
  balanced := by
    intro id expression stored
    rw [Memo.expression?_push] at stored
    split at stored
    · cases stored
      exact balanced
    · exact weighed.balanced stored

theorem of_find? (weighed : Weighed weight memo) {expression : Expression}
    (known : memo.find? operator.canonical children = some expression) :
    weight expression.group = operator.scans + (children.map weight).sum := by
  rcases Memo.expression?_of_find? known with ⟨⟨id, stored⟩, children_eq, same⟩
  rw [(weighed.balanced stored).tables, Operator.scans_congr same, children_eq,
    Operator.scans_canonical]

theorem addTo (weighed : Weighed weight memo) (origin : Option RuleId)
    (group_lt : group < memo.groups.size) (exist : ∀ child ∈ children, child < memo.groups.size)
    (balanced : Balanced weight group operator children) :
    ∃ next insertion, memo.addTo group operator children origin = .ok (next, insertion) ∧
      Weighed weight next ∧ next.groups.size = memo.groups.size := by
  rcases Memo.addTo_succeeds group_lt operator children origin with ⟨next, insertion, added⟩
  refine ⟨next, insertion, added, ?_⟩
  rcases Memo.addTo_cases added with ⟨rfl, -⟩ | ⟨rfl, -, missing⟩
  · exact ⟨weighed, rfl⟩
  · exact ⟨weighed.push group_lt exist (by simp) missing balanced.canonical, by simp⟩

end Weighed

/-- A larger memo with weights that agree with earlier ones. -/
structure Reweighed (weight : GroupId → Multiset TableRef) (memo : Memo)
    (wider : GroupId → Multiset TableRef) (larger : Memo) : Prop where
  size_le : memo.groups.size ≤ larger.groups.size
  agrees : ∀ {group : Nat}, group < memo.groups.size → wider group = weight group
  weighed : Weighed wider larger

namespace Reweighed

theorem refl (weighed : Weighed weight memo) : Reweighed weight memo weight memo :=
  ⟨Nat.le_refl _, fun _ => rfl, weighed⟩

theorem trans {largest : Memo} {widest : GroupId → Multiset TableRef}
    (early : Reweighed weight memo wider larger) (late : Reweighed wider larger widest largest) :
    Reweighed weight memo widest largest where
  size_le := Nat.le_trans early.size_le late.size_le
  agrees := fun group_lt =>
    (late.agrees (Nat.lt_of_lt_of_le group_lt early.size_le)).trans (early.agrees group_lt)
  weighed := late.weighed

/-- A shape without a group gets one of its own, which weighs what its operator and inputs do. -/
theorem add (weighed : Weighed weight memo) (origin : Option RuleId)
    (exist : ∀ child ∈ children, child < memo.groups.size) (arity : children.length = operator.arity) :
    ∃ next group id wider, memo.add operator children origin = (next, group, id) ∧
      Reweighed weight memo wider next ∧ group < next.groups.size ∧
        wider group = operator.scans + (children.map weight).sum := by
  rw [Memo.add]
  cases known : memo.find? operator.canonical children with
  | some expression =>
      have stored := weighed.consistent.find?_id known
      exact ⟨memo, expression.group, expression.id, weight, rfl, .refl weighed,
        weighed.consistent.group_lt stored, weighed.of_find? known⟩
  | none =>
      let total := operator.scans + (children.map weight).sum
      let widened := Function.update weight memo.groups.size total
      have old {group : Nat} (group_lt : group < memo.groups.size) : widened group = weight group :=
        Function.update_of_ne (Nat.ne_of_lt group_lt) _ _
      have new : widened memo.groups.size = total := Function.update_self ..
      have opened : Weighed widened memo.opened := by
        refine ⟨weighed.consistent.opened, Memo.Closed.opened weighed.closed, ?_⟩
        intro id expression stored
        have before : memo.expression? id = some expression := stored
        exact (weighed.balanced before).congr (old (weighed.consistent.group_lt before))
          fun child child_mem => old (weighed.closed before child child_mem)
      have balanced : Balanced widened memo.groups.size operator children := by
        refine ⟨arity, new.trans ?_⟩
        rw [List.map_congr_left fun child child_mem => old (exist child child_mem)]
      have opened_exist : ∀ child ∈ children, child < memo.opened.groups.size := by
        intro child child_mem
        rw [Memo.size_groups_opened]
        exact Nat.lt_succ_of_lt (exist child child_mem)
      exact ⟨_, memo.groups.size, memo.expressions.size, widened, rfl,
        ⟨by simp, old, opened.push (by simp) opened_exist (by simp) known balanced.canonical⟩,
        by simp, new⟩

end Reweighed

/-! ## Storing results -/

namespace Subplan

mutual

/-- The tables that a sub-plan scans, those of the groups that it names included. -/
def tables (weight : GroupId → Multiset TableRef) : Subplan → Multiset TableRef
  | .group id => weight id
  | .fresh operator children => operator.scans + tablesOf weight children

/-- The tables of all inputs of a list. -/
def tablesOf (weight : GroupId → Multiset TableRef) : List Subplan → Multiset TableRef
  | [] => 0
  | child :: rest => child.tables weight + tablesOf weight rest

end

mutual

/-- All new operators have as many inputs as they ask for. -/
def Natural : Subplan → Prop
  | .group _ => True
  | .fresh operator children => children.length = operator.arity ∧ AllNatural children

/-- All inputs of a list are natural. -/
def AllNatural : List Subplan → Prop
  | [] => True
  | child :: rest => child.Natural ∧ AllNatural rest

end

mutual

theorem tables_congr (agrees : ∀ {group : Nat}, group < memo.groups.size → wider group = weight group) :
    (plan : Subplan) → plan.Grounded memo → plan.tables wider = plan.tables weight
  | .group _, exists_ => agrees exists_
  | .fresh operator children, grounded => by
      rw [tables, tables, tablesOf_congr agrees children grounded]

theorem tablesOf_congr
    (agrees : ∀ {group : Nat}, group < memo.groups.size → wider group = weight group) :
    (plans : List Subplan) → AllGrounded memo plans → tablesOf wider plans = tablesOf weight plans
  | [], _ => rfl
  | child :: rest, ⟨first, others⟩ => by
      rw [tablesOf, tablesOf, tables_congr agrees child first, tablesOf_congr agrees rest others]

end

end Subplan

namespace RuleJob

variable {rule : RuleId}

mutual

/-- A sub-plan is stored in a group that weighs what the sub-plan does. -/
theorem store_weighed {weight : GroupId → Multiset TableRef} {memo : Memo}
    (weighed : Weighed weight memo) : (plan : Subplan) → plan.Grounded memo → plan.Natural →
      ∃ wider larger group, store rule memo plan = (larger, .ok group) ∧
        Reweighed weight memo wider larger ∧ group < larger.groups.size ∧
          wider group = plan.tables weight
  | .group id, exists_, _ => by
      have exists_ : id < memo.groups.size := exists_
      refine ⟨weight, memo, id, ?_, .refl weighed, exists_, rfl⟩
      rw [store, checkGroups_eq_ok (by simpa using exists_)]
      rfl
  | .fresh operator children, grounded, ⟨arity, natural⟩ => by
      rcases storeAll_weighed weighed children grounded natural with
        ⟨wider, middle, groups, stored_eq, reweighed, exist, length_eq, sum_eq⟩
      rcases Reweighed.add reweighed.weighed (some rule) exist (length_eq.trans arity) with
        ⟨larger, group, id, widest, added_eq, later, group_lt, group_eq⟩
      refine ⟨widest, larger, group, ?_, reweighed.trans later, group_lt, ?_⟩
      · rw [store, stored_eq]
        simp only [added_eq]
      · rw [group_eq, sum_eq, Subplan.tables]

theorem storeAll_weighed {weight : GroupId → Multiset TableRef} {memo : Memo}
    (weighed : Weighed weight memo) : (plans : List Subplan) → Subplan.AllGrounded memo plans →
      Subplan.AllNatural plans → ∃ wider larger groups, storeAll rule memo plans = (larger, .ok groups) ∧
        Reweighed weight memo wider larger ∧ (∀ group ∈ groups, group < larger.groups.size) ∧
          groups.length = plans.length ∧ (groups.map wider).sum = Subplan.tablesOf weight plans
  | [], _, _ => ⟨weight, memo, [], by rw [storeAll], .refl weighed, by simp, rfl, rfl⟩
  | child :: rest, ⟨first, others⟩, ⟨first_natural, natural⟩ => by
      rcases store_weighed weighed child first first_natural with
        ⟨wider, middle, group, stored_eq, early, group_lt, group_eq⟩
      rcases storeAll_weighed early.weighed rest
        (Subplan.AllGrounded.mono early.size_le rest others) natural with
        ⟨widest, larger, groups, rest_eq, late, exist, length_eq, sum_eq⟩
      refine ⟨widest, larger, group :: groups, ?_, early.trans late, ?_, ?_, ?_⟩
      · rw [storeAll, stored_eq]
        simp only [rest_eq]
      · exact List.forall_mem_cons.mpr ⟨Nat.lt_of_lt_of_le group_lt late.size_le, exist⟩
      · rw [List.length_cons, List.length_cons, length_eq]
      · rw [List.map_cons, List.sum_cons, late.agrees group_lt, group_eq, sum_eq,
          Subplan.tablesOf_congr early.agrees rest others, Subplan.tablesOf]

end

end RuleJob

/-- A result has as many inputs as it asks for, and scans the tables of its group. -/
def RuleResult.Balances (weight : GroupId → Multiset TableRef) (group : GroupId) : RuleResult → Prop
  | .substitution operator children => Balanced weight group operator children
  | .nested operator plans => plans.length = operator.arity ∧ Subplan.AllNatural plans ∧
      weight group = operator.scans + Subplan.tablesOf weight plans

theorem RuleResult.Balances.congr {result : RuleResult} (balances : result.Balances weight group)
    (grounded : result.Grounded memo) (group_lt : group < memo.groups.size)
    (agrees : ∀ {group : Nat}, group < memo.groups.size → wider group = weight group) :
    result.Balances wider group := by
  cases result with
  | substitution operator children =>
      exact Balanced.congr balances (agrees group_lt) fun child child_mem =>
        agrees (grounded child child_mem)
  | nested operator plans =>
      rcases balances with ⟨length_eq, natural, tables_eq⟩
      exact ⟨length_eq, natural,
        by rw [agrees group_lt, tables_eq, Subplan.tablesOf_congr agrees plans grounded]⟩

namespace Weighed

variable (weighed : Weighed weight memo)
include weighed

theorem inserts {result : RuleResult} (rule : RuleId) (group_lt : group < memo.groups.size)
    (grounded : result.Grounded memo) (balances : result.Balances weight group) :
    ∃ next wider, RuleJob.Inserts rule group result memo next ∧ Reweighed weight memo wider next := by
  cases result with
  | substitution operator children =>
      rcases weighed.addTo (some rule) group_lt grounded balances with
        ⟨next, insertion, added, next_weighed, size_eq⟩
      exact ⟨next, weight, .substitution grounded added, Nat.le_of_eq size_eq.symm, fun _ => rfl,
        next_weighed⟩
  | nested operator plans =>
      rcases balances with ⟨length_eq, natural, tables_eq⟩
      rcases @RuleJob.storeAll_weighed rule _ _ weighed plans grounded natural with
        ⟨wider, middle, groups, stored_eq, reweighed, exist, groups_eq, sum_eq⟩
      have balanced : Balanced wider group operator groups :=
        ⟨groups_eq.trans length_eq, by rw [reweighed.agrees group_lt, tables_eq, sum_eq]⟩
      rcases reweighed.weighed.addTo (some rule) (Nat.lt_of_lt_of_le group_lt reweighed.size_le) exist
        balanced with ⟨next, insertion, added, next_weighed, size_eq⟩
      refine ⟨next, wider, ⟨middle, operator, groups, insertion, ?_, added⟩,
        reweighed.trans ⟨Nat.le_of_eq size_eq.symm, fun _ => rfl, next_weighed⟩⟩
      rw [RuleJob.prepare, stored_eq]
      rfl

theorem insertAll (rule : RuleId) (group_lt : group < memo.groups.size) {results : List RuleResult}
    (balance : ∀ result ∈ results, result.Grounded memo ∧ result.Balances weight group)
    (added : Nat) : ∃ larger total wider,
      RuleJob.insertAll rule group memo added results = .ok (larger, total, .ok ()) ∧
        Reweighed weight memo wider larger := by
  have keeps {stage : Memo} {result : RuleResult} (result_mem : result ∈ results)
      (kept : ∃ wider, Reweighed weight memo wider stage) :
      ∃ next, RuleJob.Inserts rule group result stage next ∧
        ∃ wider, Reweighed weight memo wider next := by
    rcases kept with ⟨wider, reweighed⟩
    rcases balance result result_mem with ⟨grounded, balances⟩
    rcases reweighed.weighed.inserts rule (Nat.lt_of_lt_of_le group_lt reweighed.size_le)
      (grounded.mono reweighed.size_le) (balances.congr grounded group_lt reweighed.agrees) with
      ⟨next, widest, inserted, later⟩
    exact ⟨next, inserted, widest, reweighed.trans later⟩
  rcases RuleJob.insertAll_keeps keeps ⟨weight, .refl weighed⟩ added with
    ⟨larger, total, inserted, wider, reweighed⟩
  exact ⟨larger, total, wider, inserted, reweighed⟩

/-! ## What the standard rules give -/

theorem balanced_of_mem {input : Expression} (input_mem : input ∈ memo.logicalIn group) :
    Balanced weight group input.operator input.children := by
  rcases (Memo.mem_logicalIn weighed.consistent).mp input_mem with ⟨stored, rfl, -⟩
  exact weighed.balanced stored

section Results

variable {expression : Expression} {result : RuleResult}
  (stored : memo.expression? expression.id = some expression)
include stored

theorem of_join {type : JoinType} {condition : Scalar} {left right : GroupId}
    (join_eq : expression.join? = some (type, condition, left, right)) :
    weight expression.group = weight left + weight right := by
  rcases Expression.join?_eq_some.mp join_eq with ⟨operator_eq, children_eq⟩
  rw [(weighed.balanced stored).tables, operator_eq, children_eq]
  simp [Operator.scans, Operator.scanned?]

/-- An operator with a single input that scans nothing has the tables of its input. -/
theorem of_unary {input : GroupId} {others : List GroupId} (arity : expression.operator.arity = 1)
    (scans : expression.operator.scans = 0) (children_eq : expression.children = input :: others) :
    weight expression.group = weight input := by
  have balanced := weighed.balanced stored
  have none : others = [] := by
    have length_eq := balanced.arity
    rw [arity, children_eq, List.length_cons, Nat.succ_inj] at length_eq
    exact List.length_eq_zero_iff.mp length_eq
  rw [balanced.tables, scans, children_eq, none]
  simp

theorem balances_of_commuteJoin (result_mem : result ∈ Rules.commuteJoin expression) :
    result.Balances weight expression.group := by
  rcases Rules.mem_commuteJoin.mp result_mem with ⟨type, condition, left, right, join_eq, -, rfl⟩
  refine ⟨rfl, ?_⟩
  rw [weighed.of_join stored join_eq, add_comm]
  simp [Operator.scans, Operator.scanned?]

/-- Associativity reads the inputs of two joins, and names each of them once. -/
theorem balances_of_associations (result_mem : result ∈ Rules.associations memo expression) :
    result.Balances weight expression.group := by
  rcases Rules.of_mem_associations result_mem with ⟨outer, first, last, inner, left, right, input,
    join_eq, input_mem, inner_eq, stay, moved, parts, result_mem⟩
  rcases Expression.localInnerJoin?_eq_some.mp inner_eq with ⟨input_operator_eq, -, inputs_eq⟩
  have first_eq : weight first = weight left + weight right := by
    rw [(weighed.balanced_of_mem input_mem).tables, input_operator_eq, inputs_eq]
    simp [Operator.scans, Operator.scanned?]
  have split : weight first = weight stay + weight moved := by
    rcases parts with ⟨rfl, rfl⟩ | ⟨rfl, rfl⟩
    · exact first_eq
    · rw [first_eq, add_comm]
  rw [(Rules.mem_reassociate.mp result_mem).2]
  refine ⟨rfl, ⟨trivial, ⟨rfl, trivial, trivial, trivial⟩, trivial⟩, ?_⟩
  rw [weighed.of_join stored join_eq, split]
  simp [Operator.scans, Operator.scanned?, Subplan.tablesOf, Subplan.tables, add_assoc]

theorem balances_of_filteredJoins (result_mem : result ∈ Rules.filteredJoins memo expression) :
    result.Balances weight expression.group := by
  rcases Rules.of_mem_filteredJoins result_mem with ⟨predicate, input, others, joined, type,
    condition, left, right, operator_eq, children_eq, joined_mem, join_eq, -, rfl⟩
  rcases Expression.join?_eq_some.mp join_eq with ⟨joined_operator_eq, inputs_eq⟩
  refine ⟨rfl, ?_⟩
  rw [weighed.of_unary stored (by rw [operator_eq]; rfl) (by rw [operator_eq]; rfl) children_eq,
    (weighed.balanced_of_mem joined_mem).tables, joined_operator_eq, inputs_eq]
  rfl

/-- A narrower scan reads the same table. -/
theorem balances_of_projectedScans (result_mem : result ∈ Rules.projectedScans memo expression) :
    result.Balances weight expression.group := by
  rcases Rules.of_mem_projectedScans result_mem with ⟨scalars, aliases, input, others, scan, table,
    columns, predicate, operator_eq, children_eq, scan_mem, scan_eq, rfl⟩
  have scan_balanced := weighed.balanced_of_mem scan_mem
  have none : scan.children = [] := by
    have length_eq := scan_balanced.arity
    rw [scan_eq] at length_eq
    exact List.length_eq_zero_iff.mp length_eq
  refine ⟨by rw [operator_eq]; rfl, ⟨⟨rfl, trivial⟩, trivial⟩, ?_⟩
  rw [weighed.of_unary stored (by rw [operator_eq]; rfl) (by rw [operator_eq]; rfl) children_eq,
    scan_balanced.tables, scan_eq, none, operator_eq]
  simp [Operator.scans, Operator.scanned?, Subplan.tablesOf, Subplan.tables]

/-- An algorithm takes all inputs of the operator that it runs, and scans what it scans. -/
theorem balances_of_runs {number : RuleId} (runs : Rules.Runs number expression result) :
    result.Grounded memo ∧ result.Balances weight expression.group := by
  rcases runs with ⟨operator, physical, children, operator_eq, physical_mem, -, rfl, taken⟩
  have balanced := weighed.balanced stored
  have form_eq := LogicalOperator.form_of_mem physical_mem
  have children_eq : children = expression.children := by
    rcases taken with same | ⟨none, no_inputs⟩
    · exact same
    · have length_eq := balanced.arity
      rw [operator_eq] at length_eq
      rw [none, List.length_eq_zero_iff.mp (length_eq.trans no_inputs)]
  subst children_eq
  refine ⟨weighed.closed stored, ?_, ?_⟩
  · rw [balanced.arity, operator_eq, Operator.arity, Operator.arity, form_eq]
  · rw [balanced.tables, operator_eq, Operator.scans_form, form_eq]

/-- A standard rule never fails on an expression of a balanced memo, and its results balance. -/
theorem applies {number : RuleId} {rule : Rule} {catalog : Catalog}
    (pair_mem : (number, rule) ∈ numberedTransformations ++ numberedImplementations) :
    ∃ results, rule.apply expression memo catalog = .ok (.results results) ∧
      ∀ result ∈ results, result.Grounded memo ∧ result.Balances weight expression.group := by
  rcases List.mem_append.mp pair_mem with transforms | implements
  · have steady : rule.Steady catalog := Rules.steady_of_mem transforms
    rcases steady.applies weighed.consistent weighed.closed stored with ⟨results, apply_eq, grounded⟩
    refine ⟨results, apply_eq, fun result result_mem => ⟨(grounded result result_mem).1, ?_⟩⟩
    rcases Rules.transformation_cases transforms apply_eq rfl with rfl | rfl | rfl | rfl
    · exact weighed.balances_of_commuteJoin stored result_mem
    · exact weighed.balances_of_associations stored result_mem
    · exact weighed.balances_of_filteredJoins stored result_mem
    · exact weighed.balances_of_projectedScans stored result_mem
  · rcases Rules.implementation_applies implements with ⟨results, apply_eq, runs⟩
    exact ⟨results, apply_eq, fun result result_mem =>
      weighed.balances_of_runs stored (runs result result_mem)⟩

end Results

end Weighed

end Cascades
