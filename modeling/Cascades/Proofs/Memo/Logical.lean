import Cascades.Proofs.Memo.Consistent

/-!
# Logical expressions of explored groups

Once a group is explored its logical expressions change in nothing but their marks. If moreover all
groups below explored ones are explored, then whatever is read from the logical expressions below
an explored group stays the same in every larger memo.
-/

namespace Cascades

namespace Expression

/-- An expression without its marks. -/
def unmarked (expression : Expression) : Expression :=
  { expression with applied := .empty }

theorem unmarked_eq_iff {left right : Expression} :
    left.unmarked = right.unmarked ↔ left.id = right.id ∧ left.group = right.group ∧
      left.operator = right.operator ∧ left.children = right.children ∧
        left.origin = right.origin := by
  cases left
  cases right
  simp [unmarked]

end Expression

namespace Memo

/-- The logical expressions of a group, none if it does not exist. -/
def logicalIn (memo : Memo) (id : GroupId) : List Expression :=
  match memo.group? id with
  | some group => group.logical.filterMap memo.expression?
  | none => []

/-- All groups below explored ones are explored. -/
def ExploredBelow (memo : Memo) : Prop :=
  ∀ {id expression}, memo.Reached id .explore → expression ∈ memo.logicalIn id →
    ∀ child ∈ expression.children, memo.Reached child .explore

/-- What is read of logical expressions from the lists of a group does not depend on marks. -/
def Frozen (memo larger : Memo) (id : GroupId) : Prop :=
  (larger.logicalIn id).map Expression.unmarked = (memo.logicalIn id).map Expression.unmarked

section Logical

variable {memo : Memo}

theorem logicalIn_eq {id : GroupId} {group : Group} (found : memo.group? id = some group) :
    memo.logicalIn id = group.logical.filterMap memo.expression? := by
  rw [logicalIn, found]

theorem logicalIn_eq_nil {id : GroupId} (missing : memo.groups.size ≤ id) :
    memo.logicalIn id = [] := by
  have none : memo.group? id = none := by simpa [group?] using missing
  rw [logicalIn, none]

theorem expressionsOf_eq {ids : List ExprId}
    (stored : ∀ id ∈ ids, ∃ expression, memo.expression? id = some expression) :
    memo.expressionsOf ids = .ok (ids.filterMap memo.expression?) := by
  induction ids with
  | nil => rfl
  | cons id rest ih =>
      rcases stored id List.mem_cons_self with ⟨expression, found⟩
      have others := ih fun other other_mem => stored other (List.mem_cons_of_mem id other_mem)
      rw [expressionsOf] at others ⊢
      rw [List.mapM_cons, others, List.filterMap_cons_some found, Memo.expression, found]
      rfl

/-- The logical expressions of an existing group can be read. -/
theorem logicalOf_eq (consistent : memo.Consistent) {id : GroupId}
    (exists_ : id < memo.groups.size) : memo.logicalOf id = .ok (memo.logicalIn id) := by
  rcases group?_of_lt exists_ with ⟨group, found⟩
  have stored : ∀ member ∈ group.logical, ∃ expression, memo.expression? member = some expression := by
    intro member member_mem
    rcases consistent.logical found member_mem with ⟨expression, stored, -⟩
    exact ⟨expression, stored⟩
  rw [logicalIn_eq found, ← expressionsOf_eq stored, logicalOf, Memo.group, found]
  rfl

theorem mem_logicalIn (consistent : memo.Consistent) {id : GroupId} {expression : Expression} :
    expression ∈ memo.logicalIn id ↔ memo.expression? expression.id = some expression ∧
      expression.group = id ∧ expression.operator.isLogical = true := by
  constructor
  · intro expression_mem
    cases found : memo.group? id with
    | none =>
        rw [logicalIn, found] at expression_mem
        cases expression_mem
    | some group =>
        rw [logicalIn_eq found] at expression_mem
        rcases List.mem_filterMap.mp expression_mem with ⟨member, member_mem, stored⟩
        rcases consistent.logical found member_mem with ⟨other, other_stored, facts⟩
        rw [stored] at other_stored
        cases other_stored
        exact ⟨(consistent.numbered stored).symm ▸ stored, facts⟩
  · rintro ⟨stored, rfl, logical⟩
    rcases consistent.housed stored with ⟨group, found, member⟩
    rw [logical, if_pos rfl] at member
    rw [logicalIn_eq found]
    exact List.mem_filterMap.mpr ⟨_, member, stored⟩

theorem child_lt (consistent : memo.Consistent) (closed : memo.Closed) {id : GroupId}
    {expression : Expression} (expression_mem : expression ∈ memo.logicalIn id) :
    ∀ child ∈ expression.children, child < memo.groups.size :=
  closed ((mem_logicalIn consistent).mp expression_mem).1

theorem Reached.lt {id : GroupId} {goal : Goal} (reached : memo.Reached id goal) :
    id < memo.groups.size := by
  rcases reached with ⟨group, found, -⟩
  exact lt_of_group? found

end Logical

section Frozen

variable {memo larger : Memo}

/-- The logical expressions of an explored group only gain marks. -/
theorem Extends.frozen (extension : memo.Extends larger) (consistent : memo.Consistent)
    {id : GroupId} (explored : memo.Reached id .explore) : memo.Frozen larger id := by
  rcases explored with ⟨group, found, done⟩
  rcases extension.groups found with ⟨wider, wider_found, -, -, kept, -⟩
  rw [Frozen, logicalIn_eq found, logicalIn_eq wider_found, (kept done).2]
  have stored : ∀ member ∈ group.logical, ∃ expression, memo.expression? member = some expression := by
    intro member member_mem
    rcases consistent.logical found member_mem with ⟨expression, stored, -⟩
    exact ⟨expression, stored⟩
  generalize group.logical = members at stored
  induction members with
  | nil => rfl
  | cons member rest ih =>
      rcases stored member List.mem_cons_self with ⟨expression, member_found⟩
      rcases extension.expressions member_found with ⟨applied, larger_found, -⟩
      rw [List.filterMap_cons_some member_found, List.filterMap_cons_some larger_found,
        List.map_cons, List.map_cons,
        ih fun other other_mem => stored other (List.mem_cons_of_mem member other_mem)]
      rfl

namespace Frozen

variable {id : GroupId} {α : Type} (frozen : memo.Frozen larger id)
include frozen

omit α in
theorem mem_of_larger {later : Expression} (later_mem : later ∈ larger.logicalIn id) :
    ∃ expression ∈ memo.logicalIn id, later.unmarked = expression.unmarked := by
  have mapped : later.unmarked ∈ (larger.logicalIn id).map Expression.unmarked :=
    List.mem_map_of_mem later_mem
  rw [frozen] at mapped
  rcases List.mem_map.mp mapped with ⟨expression, expression_mem, same⟩
  exact ⟨expression, expression_mem, same.symm⟩

omit α in
theorem mem_larger {expression : Expression} (expression_mem : expression ∈ memo.logicalIn id) :
    ∃ later ∈ larger.logicalIn id, later.unmarked = expression.unmarked := by
  have mapped : expression.unmarked ∈ (memo.logicalIn id).map Expression.unmarked :=
    List.mem_map_of_mem expression_mem
  rw [← frozen] at mapped
  exact List.mem_map.mp mapped

theorem filterMap {read : Expression → Option α}
    (unmarked : ∀ expression, read expression.unmarked = read expression) :
    (larger.logicalIn id).filterMap read = (memo.logicalIn id).filterMap read := by
  have same : read ∘ Expression.unmarked = read := funext unmarked
  have mapped := congrArg (List.filterMap read) frozen
  rwa [List.filterMap_map, List.filterMap_map, same] at mapped

theorem flatMap {read : Expression → List α}
    (unmarked : ∀ expression, read expression.unmarked = read expression) :
    (larger.logicalIn id).flatMap read = (memo.logicalIn id).flatMap read := by
  have mapped := congrArg (List.flatMap read) frozen
  rw [List.flatMap_map, List.flatMap_map] at mapped
  simpa only [unmarked] using mapped

omit α in
theorem any {read : Expression → Bool}
    (unmarked : ∀ expression, read expression.unmarked = read expression) :
    (larger.logicalIn id).any read = (memo.logicalIn id).any read := by
  have same : read ∘ Expression.unmarked = read := funext unmarked
  have mapped := congrArg (List.any · read) frozen
  rwa [List.any_map, List.any_map, same] at mapped

end Frozen

end Frozen

end Memo

end Cascades
