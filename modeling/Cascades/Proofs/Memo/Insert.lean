import Cascades.Proofs.Memo.Consistent

/-!
# Insertion, marks and flags

Each change of a memo is described once: opening a group, inserting a shape into a new or a given
group, marking a rule as applied, and marking a group as driven to a goal. Insertions by a rule are
collected in one relation: they keep the stored expressions and the flags, and every new expression
names the rule as its origin.
-/

namespace Cascades

namespace Memo

/-- The memo with one more group. -/
def opened (memo : Memo) : Memo :=
  { memo with groups := memo.groups.push .empty }

section Opened

variable {memo : Memo}

@[simp]
theorem expression?_opened (id : ExprId) : memo.opened.expression? id = memo.expression? id :=
  rfl

@[simp]
theorem size_groups_opened : memo.opened.groups.size = memo.groups.size + 1 := by
  simp [opened]

theorem group?_opened (id : GroupId) :
    memo.opened.group? id = if id = memo.groups.size then some .empty else memo.group? id := by
  simp only [group?, opened, Array.getElem?_push]

theorem group?_opened_of_some {id : GroupId} {group : Group} (found : memo.group? id = some group) :
    memo.opened.group? id = some group := by
  rw [group?_opened, if_neg (Nat.ne_of_lt (lt_of_group? found))]
  exact found

theorem Consistent.opened (consistent : memo.Consistent) : memo.opened.Consistent where
  numbered := consistent.numbered
  housed := by
    intro id expression found
    rcases consistent.housed found with ⟨group, exists_, member⟩
    exact ⟨group, group?_opened_of_some exists_, member⟩
  logical := by
    intro id group member found member_mem
    rw [group?_opened] at found
    split at found
    · cases found
      simp [Group.empty] at member_mem
    · exact consistent.logical found member_mem
  physical := by
    intro id group member found member_mem
    rw [group?_opened] at found
    split at found
    · cases found
      simp [Group.empty] at member_mem
    · exact consistent.physical found member_mem
  canonical := consistent.canonical
  unique := consistent.unique

theorem Closed.opened (closed : memo.Closed) : memo.opened.Closed := by
  intro id expression found child child_mem
  rw [size_groups_opened]
  exact Nat.lt_succ_of_lt (closed found child child_mem)

theorem reached_opened {id : GroupId} {goal : Goal} :
    memo.opened.Reached id goal ↔ memo.Reached id goal := by
  simp only [Reached, group?_opened]
  split
  · rename_i last
    subst last
    have none : memo.group? memo.groups.size = none := by simp [group?]
    cases goal <;> simp [none, Group.empty, Group.reached]
  · rfl

theorem extends_opened : memo.Extends memo.opened where
  expressions := fun found => ⟨_, found, fun _ marked => marked⟩
  groups := fun found => ⟨_, group?_opened_of_some found, List.prefix_rfl, List.prefix_rfl,
    fun explored => ⟨explored, rfl⟩, fun implemented => implemented⟩

theorem not_reached_size {goal : Goal} : ¬ memo.opened.Reached memo.groups.size goal := by
  rw [reached_opened]
  rintro ⟨group, found, -⟩
  exact Nat.lt_irrefl _ (lt_of_group? found)

end Opened

/-! ## Insertions by a rule -/

/--
A memo with expressions that were inserted later, each new one with the given origin and with a
given property. The flags of all groups are the same.
-/
structure Grown (origin : Option RuleId) (new : Expression → Prop) (memo larger : Memo) : Prop where
  consistent : larger.Consistent
  closed : larger.Closed
  extends_ : memo.Extends larger
  kept : ∀ {id expression}, memo.expression? id = some expression →
    larger.expression? id = some expression
  flags : ∀ {id goal}, larger.Reached id goal ↔ memo.Reached id goal
  fresh : ∀ {id expression}, larger.expression? id = some expression →
    memo.expression? id = some expression ∨
      (memo.expression? id = none ∧ expression.origin = origin ∧ expression.applied = .empty ∧
        new expression)

namespace Grown

variable {origin : Option RuleId} {new : Expression → Prop} {memo larger : Memo}

theorem refl (consistent : memo.Consistent) (closed : memo.Closed) :
    Grown origin new memo memo :=
  ⟨consistent, closed, .refl memo, fun found => found, Iff.rfl, fun found => .inl found⟩

theorem trans {largest : Memo} (early : Grown origin new memo larger)
    (late : Grown origin new larger largest) : Grown origin new memo largest where
  consistent := late.consistent
  closed := late.closed
  extends_ := early.extends_.trans late.extends_
  kept := fun found => late.kept (early.kept found)
  flags := late.flags.trans early.flags
  fresh := by
    intro id expression found
    rcases late.fresh found with old | ⟨missing, facts⟩
    · exact early.fresh old
    · refine .inr ⟨?_, facts⟩
      cases stored : memo.expression? id with
      | none => rfl
      | some other =>
          rw [early.kept stored] at missing
          cases missing

theorem mono {wider : Expression → Prop} (grown : Grown origin new memo larger)
    (implies : ∀ expression, new expression → wider expression) :
    Grown origin wider memo larger := by
  refine ⟨grown.consistent, grown.closed, grown.extends_, grown.kept, grown.flags, ?_⟩
  intro id expression found
  rcases grown.fresh found with old | ⟨missing, origin_eq, marks, isNew⟩
  · exact .inl old
  · exact .inr ⟨missing, origin_eq, marks, implies expression isNew⟩

theorem find? (grown : Grown origin new memo larger) {operator : Operator}
    {children : List GroupId} {expression : Expression} (consistent : memo.Consistent)
    (found : memo.find? operator children = some expression) :
    larger.find? operator children = some expression := by
  rcases expression?_of_find? found with ⟨-, rfl, same⟩
  exact find?_of_expression? grown.consistent (grown.kept (consistent.find?_id found)) same

end Grown

section Insert

variable {memo : Memo} {operator : Operator} {children : List GroupId} {origin : Option RuleId}
  {group : GroupId}

/-- Storing a shape that is new, in a group where it changes no explored logical expressions. -/
theorem grown_push {new : Expression → Prop} (consistent : memo.Consistent) (closed : memo.Closed)
    (exists_ : group < memo.groups.size) (exist : ∀ child ∈ children, child < memo.groups.size)
    (canonical : operator.canonical = operator) (missing : memo.find? operator children = none)
    (open_ : operator.isLogical = true → ¬ memo.Reached group .explore)
    (isNew : new ⟨memo.expressions.size, group, operator, children, origin, .empty⟩) :
    Grown origin new memo (memo.push group operator children origin) where
  consistent := consistent.push exists_ canonical missing
  closed := closed.push exist
  extends_ := extends_push open_
  kept := expression?_push_of_some
  flags := reached_push
  fresh := by
    intro id expression found
    rw [expression?_push] at found
    split at found
    · rename_i last
      cases found
      exact .inr ⟨by simp [last, expression?], rfl, rfl, isNew⟩
    · exact .inl found

theorem grown_opened {new : Expression → Prop} (consistent : memo.Consistent)
    (closed : memo.Closed) :
    Grown origin new memo memo.opened where
  consistent := consistent.opened
  closed := closed.opened
  extends_ := extends_opened
  kept := fun found => found
  flags := reached_opened
  fresh := fun found => .inl found

theorem find?_push_self (consistent : (memo.push group operator children origin).Consistent) :
    (memo.push group operator children origin).find? operator children =
      some ⟨memo.expressions.size, group, operator, children, origin, .empty⟩ := by
  have stored : (memo.push group operator children origin).expression? memo.expressions.size =
      some ⟨memo.expressions.size, group, operator, children, origin, .empty⟩ := by
    rw [expression?_push, if_pos rfl]
  exact find?_of_expression? consistent stored (Operator.same_self operator)

/-- Inserting into a group of its own stores the shape, or finds it. -/
theorem add_spec (new : Expression → Prop) (consistent : memo.Consistent) (closed : memo.Closed)
    (exist : ∀ child ∈ children, child < memo.groups.size)
    (isNew : memo.find? operator.canonical children = none →
      new ⟨memo.expressions.size, memo.groups.size, operator.canonical, children, origin, .empty⟩) :
    Grown origin new memo (memo.add operator children origin).1 ∧
      ∃ expression, (memo.add operator children origin).1.find? operator.canonical children =
          some expression ∧
        expression.group = (memo.add operator children origin).2.1 ∧
        expression.id = (memo.add operator children origin).2.2 := by
  rw [add]
  cases known : memo.find? operator.canonical children with
  | some expression => exact ⟨.refl consistent closed, expression, known, rfl, rfl⟩
  | none =>
      have grown : Grown origin new memo.opened
          (memo.opened.push memo.groups.size operator.canonical children origin) :=
        grown_push consistent.opened closed.opened (by simp)
          (fun child child_mem => by
            rw [size_groups_opened]
            exact Nat.lt_succ_of_lt (exist child child_mem))
          (by simp) known (fun _ => not_reached_size) (isNew known)
      exact ⟨(grown_opened consistent closed).trans grown, _, find?_push_self grown.consistent,
        rfl, rfl⟩

/-- Inserting into a group that exists never fails. -/
theorem addTo_succeeds (exists_ : group < memo.groups.size) (operator : Operator)
    (children : List GroupId) (origin : Option RuleId) :
    ∃ larger insertion, memo.addTo group operator children origin = .ok (larger, insertion) := by
  have holds : memo.holdsGroup group = true := by simpa [holdsGroup] using exists_
  rw [addTo]
  split
  · split
    · exact ⟨_, _, rfl⟩
    · exact ⟨_, _, rfl⟩
  · rw [if_pos holds]
    exact ⟨_, _, rfl⟩

/-- Inserting into a given group changes nothing, or stores a shape there that is new. -/
theorem addTo_cases {larger : Memo} {insertion : Insertion}
    (added : memo.addTo group operator children origin = .ok (larger, insertion)) :
    (larger = memo ∧ ∃ found, memo.find? operator.canonical children = some found) ∨
      (larger = memo.push group operator.canonical children origin ∧ group < memo.groups.size ∧
        memo.find? operator.canonical children = none) := by
  rw [addTo] at added
  cases known : memo.find? operator.canonical children with
  | some found =>
      rw [known] at added
      dsimp only at added
      split at added <;> (cases added; exact .inl ⟨rfl, found, rfl⟩)
  | none =>
      rw [known] at added
      dsimp only at added
      split at added
      · rename_i holds
        cases added
        exact .inr ⟨rfl, by simpa [holdsGroup] using holds, rfl⟩
      · cases added

/-- Inserting into a given group stores the shape there, or finds it. -/
theorem addTo_spec (new : Expression → Prop) (consistent : memo.Consistent) (closed : memo.Closed)
    (exists_ : group < memo.groups.size) (exist : ∀ child ∈ children, child < memo.groups.size)
    (open_ : operator.isLogical = true → ¬ memo.Reached group .explore)
    (isNew : memo.find? operator.canonical children = none →
      new ⟨memo.expressions.size, group, operator.canonical, children, origin, .empty⟩) :
    ∃ larger insertion, memo.addTo group operator children origin = .ok (larger, insertion) ∧
      Grown origin new memo larger ∧
        ∃ expression, larger.find? operator.canonical children = some expression := by
  rcases addTo_succeeds exists_ operator children origin with ⟨larger, insertion, added⟩
  refine ⟨larger, insertion, added, ?_⟩
  rcases addTo_cases added with ⟨rfl, found⟩ | ⟨rfl, -, missing⟩
  · exact ⟨.refl consistent closed, found⟩
  · have grown : Grown origin new memo (memo.push group operator.canonical children origin) :=
      grown_push consistent closed exists_ exist (by simp) missing (by simpa using open_)
        (isNew missing)
    exact ⟨grown, _, find?_push_self grown.consistent⟩

end Insert

/-! ## Marks and flags -/

section Marked

variable {memo : Memo} {id : ExprId} {rule : RuleId}

/-- The memo in which a rule is recorded as applied to an expression. -/
def marked (memo : Memo) (expression : Expression) (rule : RuleId) : Memo :=
  { memo with
    expressions := memo.expressions.setIfInBounds expression.id
      { expression with applied := expression.applied.insert rule } }

theorem markApplied_eq (consistent : memo.Consistent) {expression : Expression}
    (found : memo.expression? id = some expression) :
    memo.markApplied id rule =
      .ok (memo.marked expression rule, !expression.applied.contains rule) := by
  have id_eq := consistent.numbered found
  subst id_eq
  simp [markApplied, Memo.expression, found, marked, bind, Except.bind, pure, Except.pure]

theorem marked_of_markApplied (consistent : memo.Consistent) {larger : Memo} {isNew : Bool}
    (marked : memo.markApplied id rule = .ok (larger, isNew)) :
    ∃ expression, memo.expression? id = some expression ∧ larger = memo.marked expression rule := by
  cases found : memo.expression? id with
  | none =>
      rw [markApplied, Memo.expression, found] at marked
      cases marked
  | some expression =>
      rw [markApplied_eq consistent found] at marked
      cases marked
      exact ⟨expression, rfl, rfl⟩

theorem expression?_marked (consistent : memo.Consistent) {expression : Expression}
    (found : memo.expression? id = some expression) (other : ExprId) :
    (memo.marked expression rule).expression? other =
      if id = other then some { expression with applied := expression.applied.insert rule }
      else memo.expression? other := by
  have id_eq := consistent.numbered found
  have bounded := lt_of_expression? found
  subst id_eq
  rw [expression?, marked, Array.getElem?_setIfInBounds, if_pos bounded]
  rfl

/-- A mark changes no expression in any other way. -/
theorem expression?_of_marked (consistent : memo.Consistent) {expression : Expression}
    (found : memo.expression? id = some expression) {other : ExprId} {stored : Expression}
    (stored_found : (memo.marked expression rule).expression? other = some stored) :
    ∃ before, memo.expression? other = some before ∧
      stored = { before with applied := stored.applied } ∧
      ∀ marked, stored.applied.contains marked = true →
        before.applied.contains marked = true ∨ (other = id ∧ marked = rule) := by
  rw [expression?_marked consistent found] at stored_found
  split at stored_found
  · rename_i here
    cases stored_found
    refine ⟨expression, here ▸ found, rfl, ?_⟩
    intro marked isMarked
    rw [RuleSet.contains_insert, Bool.or_eq_true, beq_iff_eq] at isMarked
    exact isMarked.imp_right fun same => ⟨here.symm, same⟩
  · exact ⟨stored, stored_found, rfl, fun _ isMarked => .inl isMarked⟩

theorem extends_marked (consistent : memo.Consistent) {expression : Expression}
    (found : memo.expression? id = some expression) :
    memo.Extends (memo.marked expression rule) where
  expressions := by
    intro other stored stored_found
    rw [expression?_marked consistent found]
    split
    · rename_i here
      subst here
      rw [found] at stored_found
      cases stored_found
      refine ⟨_, rfl, ?_⟩
      intro marked isMarked
      rw [RuleSet.contains_insert, isMarked, Bool.true_or]
    · exact ⟨_, stored_found, fun _ isMarked => isMarked⟩
  groups := fun found => ⟨_, found, List.prefix_rfl, List.prefix_rfl, fun explored => ⟨explored, rfl⟩,
    fun implemented => implemented⟩

theorem Consistent.marked (consistent : memo.Consistent) {expression : Expression}
    (found : memo.expression? id = some expression) :
    (memo.marked expression rule).Consistent := by
  have extension : memo.Extends (memo.marked expression rule) := extends_marked consistent found
  refine ⟨?_, ?_, ?_, ?_, ?_, ?_⟩
  · intro other stored stored_found
    rcases expression?_of_marked consistent found stored_found with ⟨before, old, same, -⟩
    have kept := consistent.numbered old
    rw [same]
    exact kept
  · intro other stored stored_found
    rcases expression?_of_marked consistent found stored_found with ⟨before, old, same, -⟩
    have kept := consistent.housed old
    rw [same]
    exact kept
  · intro group held member group_found member_mem
    rcases consistent.logical group_found member_mem with ⟨before, old, facts⟩
    rcases extension.expressions old with ⟨applied, stored, -⟩
    exact ⟨_, stored, facts⟩
  · intro group held member group_found member_mem
    rcases consistent.physical group_found member_mem with ⟨before, old, facts⟩
    rcases extension.expressions old with ⟨applied, stored, -⟩
    exact ⟨_, stored, facts⟩
  · intro other stored stored_found
    rcases expression?_of_marked consistent found stored_found with ⟨before, old, same, -⟩
    have kept := consistent.canonical old
    rw [same]
    exact kept
  · intro first second left right left_found right_found children_eq same
    rcases expression?_of_marked consistent found left_found with ⟨left', left_old, left_eq, -⟩
    rcases expression?_of_marked consistent found right_found with ⟨right', right_old, right_eq, -⟩
    rw [left_eq, right_eq] at children_eq same
    exact consistent.unique left_old right_old children_eq same

theorem Closed.marked (consistent : memo.Consistent) (closed : memo.Closed)
    {expression : Expression} (found : memo.expression? id = some expression) :
    (memo.marked expression rule).Closed := by
  intro other stored stored_found child child_mem
  rcases expression?_of_marked consistent found stored_found with ⟨before, old, same, -⟩
  rw [same] at child_mem
  exact closed old child child_mem

end Marked

section Flagged

variable {memo : Memo} {id : GroupId} {goal : Goal}

/-- The memo in which a group is recorded as driven to a goal. -/
def flagged (memo : Memo) (id : GroupId) (group : Group) (goal : Goal) : Memo :=
  { memo with groups := memo.groups.setIfInBounds id (group.mark goal) }

variable {group : Group} (found : memo.group? id = some group)
include found

theorem group?_flagged (other : GroupId) :
    (memo.flagged id group goal).group? other =
      if id = other then some (group.mark goal) else memo.group? other := by
  rw [group?, flagged, Array.getElem?_setIfInBounds]
  split
  · rw [if_pos (lt_of_group? found)]
  · rfl

theorem reached_flagged {other : GroupId} {wanted : Goal} :
    (memo.flagged id group goal).Reached other wanted ↔
      memo.Reached other wanted ∨ (other = id ∧ wanted = goal) := by
  simp only [Reached, group?_flagged found]
  split
  · rename_i here
    subst here
    simp only [found, Option.some.injEq, exists_eq_left', true_and]
    cases goal <;> cases wanted <;> simp [Group.mark, Group.reached]
  · rename_i different
    simp [Ne.symm different]

theorem extends_flagged : memo.Extends (memo.flagged id group goal) where
  expressions := fun found => ⟨_, found, fun _ marked => marked⟩
  groups := by
    intro other held held_found
    rw [group?_flagged found]
    split
    · rename_i here
      subst here
      rw [found] at held_found
      cases held_found
      refine ⟨_, rfl, ?_⟩
      cases goal <;> simp [Group.mark]
    · exact ⟨held, held_found, List.prefix_rfl, List.prefix_rfl, fun explored => ⟨explored, rfl⟩,
        fun implemented => implemented⟩

/-- Flags change no list of a group. -/
theorem group?_of_flagged {other : GroupId} {held : Group}
    (held_found : (memo.flagged id group goal).group? other = some held) :
    ∃ before, memo.group? other = some before ∧ held.logical = before.logical ∧
      held.physical = before.physical := by
  rw [group?_flagged found] at held_found
  split at held_found
  · rename_i here
    cases held_found
    refine ⟨group, here ▸ found, ?_⟩
    cases goal <;> exact ⟨rfl, rfl⟩
  · exact ⟨held, held_found, rfl, rfl⟩

theorem Consistent.flagged (consistent : memo.Consistent) :
    (memo.flagged id group goal).Consistent where
  numbered := consistent.numbered
  housed := by
    intro other expression stored
    rcases consistent.housed stored with ⟨held, held_found, member⟩
    rw [group?_flagged found]
    split
    · rename_i here
      subst here
      rw [found] at held_found
      cases held_found
      refine ⟨_, rfl, ?_⟩
      cases goal <;> exact member
    · exact ⟨held, held_found, member⟩
  logical := by
    intro other held member held_found member_mem
    rcases group?_of_flagged found held_found with ⟨before, old, logical, -⟩
    rw [logical] at member_mem
    exact consistent.logical old member_mem
  physical := by
    intro other held member held_found member_mem
    rcases group?_of_flagged found held_found with ⟨before, old, -, physical⟩
    rw [physical] at member_mem
    exact consistent.physical old member_mem
  canonical := consistent.canonical
  unique := consistent.unique

omit found in
theorem Closed.flagged (closed : memo.Closed) : (memo.flagged id group goal).Closed := by
  intro other expression stored child child_mem
  have bounded := closed stored child child_mem
  simpa [Memo.flagged] using bounded

end Flagged

end Memo

end Cascades
