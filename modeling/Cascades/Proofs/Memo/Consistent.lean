import Cascades.Memo.Insert
import Cascades.Proofs.RuleSet
import Cascades.Proofs.Scalar.Canonical

/-!
# The memo as a store

Whatever is inserted, a memo stays consistent: expressions carry their own numbers, each of them
lives in exactly the list of its group that its operator asks for, operators are in canonical form,
and no shape is stored twice. A memo is closed if all children exist.

A larger memo keeps all expressions with their marks and appends to the lists of its groups. Most
changes also leave the logical expressions of an explored group as they were.
-/

namespace Cascades

namespace Memo

/-- What every insertion keeps of a memo. -/
structure Consistent (memo : Memo) : Prop where
  numbered : ∀ {id expression}, memo.expression? id = some expression → expression.id = id
  housed : ∀ {id expression}, memo.expression? id = some expression →
    ∃ group, memo.group? expression.group = some group ∧
      id ∈ if expression.operator.isLogical then group.logical else group.physical
  logical : ∀ {id group member}, memo.group? id = some group → member ∈ group.logical →
    ∃ expression, memo.expression? member = some expression ∧ expression.group = id ∧
      expression.operator.isLogical = true
  physical : ∀ {id group member}, memo.group? id = some group → member ∈ group.physical →
    ∃ expression, memo.expression? member = some expression ∧ expression.group = id ∧
      expression.operator.isLogical = false
  canonical : ∀ {id expression}, memo.expression? id = some expression →
    expression.operator.canonical = expression.operator
  unique : ∀ {first second left right}, memo.expression? first = some left →
    memo.expression? second = some right → left.children = right.children →
      left.operator.same right.operator = true → first = second

/-- All children exist. -/
def Closed (memo : Memo) : Prop :=
  ∀ {id expression}, memo.expression? id = some expression →
    ∀ child ∈ expression.children, child < memo.groups.size

/-- A group has been driven to a goal. -/
def Reached (memo : Memo) (id : GroupId) (goal : Goal) : Prop :=
  ∃ group, memo.group? id = some group ∧ group.reached goal = true

theorem reached_iff {memo : Memo} {id : GroupId} {goal : Goal} :
    memo.Reached id goal ↔ (memo.group? id).any (·.reached goal) = true := by
  simp [Reached, Option.any_eq_true]

instance (memo : Memo) (id : GroupId) (goal : Goal) : Decidable (memo.Reached id goal) :=
  decidable_of_iff _ reached_iff.symm

/-- A memo that holds all that another one does. -/
structure Grows (memo larger : Memo) : Prop where
  expressions : ∀ {id expression}, memo.expression? id = some expression →
    ∃ applied, larger.expression? id = some { expression with applied } ∧
      ∀ rule, expression.applied.contains rule = true → applied.contains rule = true
  groups : ∀ {id group}, memo.group? id = some group →
    ∃ wider, larger.group? id = some wider ∧ group.logical <+: wider.logical ∧
      group.physical <+: wider.physical ∧
      ∀ goal, group.reached goal = true → wider.reached goal = true

namespace Grows

theorem refl (memo : Memo) : memo.Grows memo where
  expressions := fun found => ⟨_, found, fun _ marked => marked⟩
  groups := fun found => ⟨_, found, List.prefix_rfl, List.prefix_rfl, fun _ done => done⟩

theorem trans {first second third : Memo} (early : first.Grows second)
    (late : second.Grows third) : first.Grows third where
  expressions := by
    intro id expression found
    rcases early.expressions found with ⟨applied, found, kept⟩
    rcases late.expressions found with ⟨later, found, kept_later⟩
    exact ⟨later, found, fun rule marked => kept_later rule (kept rule marked)⟩
  groups := by
    intro id group found
    rcases early.groups found with ⟨wider, found, logical, physical, reached⟩
    rcases late.groups found with ⟨widest, found, logical', physical', reached'⟩
    exact ⟨widest, found, logical.trans logical', physical.trans physical',
      fun goal done => reached' goal (reached goal done)⟩

theorem reached {memo larger : Memo} (grows : memo.Grows larger) {id : GroupId} {goal : Goal}
    (reached : memo.Reached id goal) : larger.Reached id goal := by
  rcases reached with ⟨group, found, done⟩
  rcases grows.groups found with ⟨wider, found, -, -, kept⟩
  exact ⟨wider, found, kept goal done⟩

theorem size_le {memo larger : Memo} (grows : memo.Grows larger) :
    memo.groups.size ≤ larger.groups.size := by
  rcases Nat.lt_or_ge larger.groups.size memo.groups.size with fewer | enough
  · have found : memo.group? larger.groups.size = some memo.groups[larger.groups.size] := by
      simp [group?, fewer]
    rcases grows.groups found with ⟨wider, beyond, -⟩
    simp [group?] at beyond
  · exact enough

end Grows

/-- A larger memo in which the explored groups have their logical expressions as before. -/
structure Extends (memo larger : Memo) : Prop where
  expressions : ∀ {id expression}, memo.expression? id = some expression →
    ∃ applied, larger.expression? id = some { expression with applied } ∧
      ∀ rule, expression.applied.contains rule = true → applied.contains rule = true
  groups : ∀ {id group}, memo.group? id = some group →
    ∃ wider, larger.group? id = some wider ∧ group.logical <+: wider.logical ∧
      group.physical <+: wider.physical ∧
      (group.explored = true → wider.explored = true ∧ wider.logical = group.logical) ∧
      (group.implemented = true → wider.implemented = true)

namespace Extends

theorem refl (memo : Memo) : memo.Extends memo where
  expressions := fun found => ⟨_, found, fun _ marked => marked⟩
  groups := fun found => ⟨_, found, List.prefix_rfl, List.prefix_rfl, fun explored => ⟨explored, rfl⟩,
    fun implemented => implemented⟩

theorem trans {first second third : Memo} (early : first.Extends second)
    (late : second.Extends third) : first.Extends third where
  expressions := by
    intro id expression found
    rcases early.expressions found with ⟨applied, found, kept⟩
    rcases late.expressions found with ⟨later, found, kept_later⟩
    exact ⟨later, found, fun rule marked => kept_later rule (kept rule marked)⟩
  groups := by
    intro id group found
    rcases early.groups found with ⟨wider, found, logical, physical, explored, implemented⟩
    rcases late.groups found with ⟨widest, found, logical', physical', explored', implemented'⟩
    refine ⟨widest, found, logical.trans logical', physical.trans physical', ?_,
      fun done => implemented' (implemented done)⟩
    intro done
    have middle := explored done
    have last := explored' middle.1
    exact ⟨last.1, last.2.trans middle.2⟩

variable {memo larger : Memo} (extension : memo.Extends larger)
include extension

theorem grows : memo.Grows larger where
  expressions := extension.expressions
  groups := by
    intro id group found
    rcases extension.groups found with
      ⟨wider, found, logical, physical, explored, implemented⟩
    refine ⟨wider, found, logical, physical, fun goal done => ?_⟩
    cases goal with
    | explore => exact (explored done).1
    | implement => exact implemented done

theorem size_le : memo.groups.size ≤ larger.groups.size :=
  extension.grows.size_le

theorem reached {id : GroupId} {goal : Goal} (reached : memo.Reached id goal) :
    larger.Reached id goal :=
  extension.grows.reached reached

end Extends

section Lookup

variable {memo : Memo} {id : ExprId} {group : GroupId}

theorem group?_of_lt (bounded : group < memo.groups.size) :
    ∃ found, memo.group? group = some found :=
  ⟨memo.groups[group], by simp [group?, bounded]⟩

theorem lt_of_group? {found : Group} (exists_ : memo.group? group = some found) :
    group < memo.groups.size :=
  (Array.getElem?_eq_some_iff.mp exists_).1

theorem lt_of_expression? {expression : Expression}
    (found : memo.expression? id = some expression) : id < memo.expressions.size :=
  (Array.getElem?_eq_some_iff.mp found).1

theorem Consistent.group_lt (consistent : memo.Consistent) {expression : Expression}
    (found : memo.expression? id = some expression) : expression.group < memo.groups.size := by
  rcases consistent.housed found with ⟨group, exists_, -⟩
  exact lt_of_group? exists_

theorem expression?_of_find? {operator : Operator} {children : List GroupId}
    {expression : Expression} (found : memo.find? operator children = some expression) :
    (∃ id, memo.expression? id = some expression) ∧ expression.children = children ∧
      expression.operator.same operator = true := by
  rw [find?] at found
  have shape := Array.find?_some found
  rw [Bool.and_eq_true, beq_iff_eq] at shape
  rcases Array.getElem?_of_mem (Array.mem_of_find?_eq_some found) with ⟨id, stored⟩
  exact ⟨⟨id, stored⟩, shape⟩

/-- Every stored shape is found. -/
theorem find?_of_expression? (consistent : memo.Consistent) {operator : Operator}
    {expression : Expression} (stored : memo.expression? id = some expression)
    (same : expression.operator.same operator = true) :
    memo.find? operator expression.children = some expression := by
  cases found : memo.find? operator expression.children with
  | none =>
      rw [find?, Array.find?_eq_none] at found
      have mem : expression ∈ memo.expressions := Array.mem_of_getElem? stored
      simpa [same] using found expression mem
  | some other =>
      rcases expression?_of_find? found with ⟨⟨position, other_stored⟩, children_eq, other_same⟩
      have both_same : other.operator.same expression.operator = true := by
        rw [Operator.same_iff] at same other_same ⊢
        exact other_same.trans same.symm
      have place := consistent.unique other_stored stored children_eq both_same
      rw [place, stored] at other_stored
      exact other_stored.symm

theorem Consistent.find?_id (consistent : memo.Consistent) {operator : Operator}
    {children : List GroupId} {expression : Expression}
    (found : memo.find? operator children = some expression) :
    memo.expression? expression.id = some expression := by
  rcases expression?_of_find? found with ⟨⟨id, stored⟩, -⟩
  rw [consistent.numbered stored]
  exact stored

end Lookup

/-! ## Storing an expression -/

section Push

variable {memo : Memo} {group : GroupId} {operator : Operator} {children : List GroupId}
  {origin : Option RuleId}

theorem expression?_push (id : ExprId) :
    (memo.push group operator children origin).expression? id =
      if id = memo.expressions.size then
        some ⟨memo.expressions.size, group, operator, children, origin, .empty⟩
      else memo.expression? id := by
  simp only [expression?, push, Array.getElem?_push]

theorem group?_push (id : GroupId) :
    (memo.push group operator children origin).group? id =
      if group = id then (memo.group? id).map (·.push memo.expressions.size operator.isLogical)
      else memo.group? id := by
  simp only [group?, push, Array.getElem?_modify]

theorem expression?_push_of_some {id : ExprId} {expression : Expression}
    (found : memo.expression? id = some expression) :
    (memo.push group operator children origin).expression? id = some expression := by
  rw [expression?_push, if_neg (Nat.ne_of_lt (lt_of_expression? found))]
  exact found

@[simp]
theorem size_groups_push :
    (memo.push group operator children origin).groups.size = memo.groups.size := by
  simp [push]

theorem mem_push_logical {held : Group} {id member : ExprId} {logical : Bool} :
    member ∈ (held.push id logical).logical ↔
      member ∈ held.logical ∨ (logical = true ∧ member = id) := by
  cases logical <;> simp [Group.push]

theorem mem_push_physical {held : Group} {id member : ExprId} {logical : Bool} :
    member ∈ (held.push id logical).physical ↔
      member ∈ held.physical ∨ (logical = false ∧ member = id) := by
  cases logical <;> simp [Group.push]

/-- A new shape in canonical form keeps a memo consistent. -/
theorem Consistent.push (consistent : memo.Consistent) (exists_ : group < memo.groups.size)
    (canonical : operator.canonical = operator) (fresh : memo.find? operator children = none) :
    (memo.push group operator children origin).Consistent := by
  have not_same {id : ExprId} {expression : Expression}
      (found : memo.expression? id = some expression) (children_eq : expression.children = children)
      (same : expression.operator.same operator = true) : False := by
    have known := find?_of_expression? consistent found same
    rw [children_eq, fresh] at known
    cases known
  have pushed {id : ExprId} {expression : Expression}
      (found : (memo.push group operator children origin).expression? id = some expression) :
      (id = memo.expressions.size ∧
        expression = ⟨memo.expressions.size, group, operator, children, origin, .empty⟩) ∨
        memo.expression? id = some expression := by
    rw [expression?_push] at found
    split at found
    · rename_i last
      cases found
      exact .inl ⟨last, rfl⟩
    · exact .inr found
  refine ⟨?_, ?_, ?_, ?_, ?_, ?_⟩
  · intro id expression found
    rcases pushed found with ⟨rfl, rfl⟩ | old
    · rfl
    · exact consistent.numbered old
  · intro id expression found
    rcases pushed found with ⟨rfl, rfl⟩ | old
    · rcases group?_of_lt exists_ with ⟨held, found⟩
      refine ⟨held.push memo.expressions.size operator.isLogical, by simp [group?_push, found], ?_⟩
      cases logical : operator.isLogical <;> simp [Group.push]
    · rcases consistent.housed old with ⟨held, found, member⟩
      rw [group?_push]
      split
      · refine ⟨held.push memo.expressions.size operator.isLogical, by simp [found], ?_⟩
        cases logical : expression.operator.isLogical
        · rw [logical] at member
          exact mem_push_physical.mpr (.inl member)
        · rw [logical] at member
          exact mem_push_logical.mpr (.inl member)
      · exact ⟨held, found, member⟩
  · intro id held member found member_mem
    rw [group?_push] at found
    split at found
    · rename_i here
      subst here
      rcases Option.map_eq_some_iff.mp found with ⟨before, before_found, rfl⟩
      rcases mem_push_logical.mp member_mem with old | ⟨logical, rfl⟩
      · rcases consistent.logical before_found old with ⟨expression, stored, facts⟩
        exact ⟨expression, expression?_push_of_some stored, facts⟩
      · exact ⟨_, by rw [expression?_push, if_pos rfl], rfl, logical⟩
    · rcases consistent.logical found member_mem with ⟨expression, stored, facts⟩
      exact ⟨expression, expression?_push_of_some stored, facts⟩
  · intro id held member found member_mem
    rw [group?_push] at found
    split at found
    · rename_i here
      subst here
      rcases Option.map_eq_some_iff.mp found with ⟨before, before_found, rfl⟩
      rcases mem_push_physical.mp member_mem with old | ⟨physical, rfl⟩
      · rcases consistent.physical before_found old with ⟨expression, stored, facts⟩
        exact ⟨expression, expression?_push_of_some stored, facts⟩
      · exact ⟨_, by rw [expression?_push, if_pos rfl], rfl, physical⟩
    · rcases consistent.physical found member_mem with ⟨expression, stored, facts⟩
      exact ⟨expression, expression?_push_of_some stored, facts⟩
  · intro id expression found
    rcases pushed found with ⟨rfl, rfl⟩ | old
    · exact canonical
    · exact consistent.canonical old
  · intro first second left right left_found right_found children_eq same
    rcases pushed left_found with ⟨rfl, rfl⟩ | left_old
    · rcases pushed right_found with ⟨rfl, rfl⟩ | right_old
      · rfl
      · refine (not_same right_old children_eq.symm ?_).elim
        rw [Operator.same_iff] at same ⊢
        exact same.symm
    · rcases pushed right_found with ⟨rfl, rfl⟩ | right_old
      · exact (not_same left_old children_eq same).elim
      · exact consistent.unique left_old right_old children_eq same

theorem Closed.push (closed : memo.Closed) (exist : ∀ child ∈ children, child < memo.groups.size) :
    (memo.push group operator children origin).Closed := by
  intro id expression found child child_mem
  rw [size_groups_push]
  rw [expression?_push] at found
  split at found
  · cases found
    exact exist child child_mem
  · exact closed found child child_mem

theorem reached_push {id : GroupId} {goal : Goal} :
    (memo.push group operator children origin).Reached id goal ↔ memo.Reached id goal := by
  have same (held : Group) : (held.push memo.expressions.size operator.isLogical).reached goal =
      held.reached goal := by
    cases goal <;> simp only [Group.push, Group.reached] <;> split <;> rfl
  simp only [Reached, group?_push]
  split
  · cases memo.group? id <;> simp [same]
  · rfl

/-- Storing an expression in a group only appends to a list of that group. -/
theorem grows_push : memo.Grows (memo.push group operator children origin) where
  expressions := fun found => ⟨_, expression?_push_of_some found, fun _ marked => marked⟩
  groups := by
    intro id held found
    rw [group?_push]
    split
    · refine ⟨held.push memo.expressions.size operator.isLogical, by simp [found], ?_⟩
      cases operator.isLogical with
      | false => exact ⟨List.prefix_rfl, List.prefix_append _ _, fun goal done => by
          cases goal <;> exact done⟩
      | true => exact ⟨List.prefix_append _ _, List.prefix_rfl, fun goal done => by
          cases goal <;> exact done⟩
    · exact ⟨held, found, List.prefix_rfl, List.prefix_rfl, fun _ done => done⟩

/-- Storing an expression extends a memo, unless it is a logical one in an explored group. -/
theorem extends_push (open_ : operator.isLogical = true → ¬ memo.Reached group .explore) :
    memo.Extends (memo.push group operator children origin) where
  expressions := fun found => ⟨_, expression?_push_of_some found, fun _ marked => marked⟩
  groups := by
    intro id held found
    rw [group?_push]
    split
    · rename_i here
      subst here
      refine ⟨held.push memo.expressions.size operator.isLogical, by simp [found], ?_⟩
      cases logical : operator.isLogical with
      | false => simp [Group.push]
      | true =>
          have unexplored : held.explored = false := by
            cases explored : held.explored with
            | false => rfl
            | true => exact (open_ logical ⟨held, found, explored⟩).elim
          simp [Group.push, unexplored]
    · exact ⟨held, found, List.prefix_rfl, List.prefix_rfl, fun explored => ⟨explored, rfl⟩,
        fun implemented => implemented⟩

end Push

end Memo

end Cascades
