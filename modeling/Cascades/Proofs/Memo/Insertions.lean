import Cascades.Proofs.Memo.Built
import Mathlib.Data.List.Nodup

/-!
# The memo as an insert-or-find store

A memo that arises by insertions holds every shape at most once, and lists each of its expressions
once over all groups. Inserting a known shape finds it and changes nothing. Inserting a new shape
appends one expression, and what was stored before stays as it was.
-/

namespace Cascades

namespace Memo

/-- A memo that insertions lead to from another one. -/
inductive Inserted (memo : Memo) : Memo → Prop
  | none : Inserted memo memo
  | add {middle : Memo} (operator : Operator) (children : List GroupId) (origin : Option RuleId) :
      Inserted memo middle → Inserted memo (middle.add operator children origin).1
  | addTo {middle larger : Memo} {group : GroupId} {operator : Operator} {children : List GroupId}
      {origin : Option RuleId} {insertion : Insertion} : Inserted memo middle →
      middle.addTo group operator children origin = .ok (larger, insertion) → Inserted memo larger

/-- An expression of the memo, in whatever group, that has the shape of an insertion. -/
structure Knows (memo : Memo) (operator : Operator) (children : List GroupId)
    (expression : Expression) : Prop where
  stored : memo.expression? expression.id = some expression
  operator : expression.operator.canonical.same operator.canonical = true
  children : expression.children = children

/-- A memo with one more expression, the last one, which is also the last one of its group. -/
structure Creates (memo : Memo) (expression : Expression) (larger : Memo) : Prop where
  expressions : larger.expressions = memo.expressions.push expression
  group : larger.group? expression.group = some (((memo.group? expression.group).getD .empty).push
    expression.id expression.operator.isLogical)
  others : ∀ {id}, id ≠ expression.group → larger.group? id = memo.group? id

/-- What holds of a memo that insertions lead to from the empty one. -/
structure Stocked (memo : Memo) : Prop where
  dense : ∀ {id}, id < memo.expressions.size →
    ∃ expression, memo.expression? id = some expression ∧ expression.id = id
  distinct : ∀ {first second left right}, memo.expression? first = some left →
    memo.expression? second = some right → left.children = right.children →
      left.operator.same right.operator = true → first = second
  canonical : ∀ {id expression}, memo.expression? id = some expression →
    expression.operator.canonical = expression.operator
  listed : (memo.groups.toList.flatMap Group.expressions).Perm (List.range memo.expressions.size)
  logical : ∀ {id group}, memo.group? id = some group → ∀ member, member ∈ group.logical ↔
    ∃ expression, memo.expression? member = some expression ∧ expression.group = id ∧
      expression.operator.isLogical = true
  physical : ∀ {id group}, memo.group? id = some group → ∀ member, member ∈ group.physical ↔
    ∃ expression, memo.expression? member = some expression ∧ expression.group = id ∧
      expression.operator.isLogical = false
  ascending : ∀ {id group}, memo.group? id = some group →
    group.logical.Pairwise (· < ·) ∧ group.physical.Pairwise (· < ·)
  inhabited : ∀ {id group}, memo.group? id = some group → group.expressions ≠ []

section Insertion

variable {memo : Memo} {operator : Operator} {children : List GroupId} {origin : Option RuleId}
  {group : GroupId} {expression : Expression}

theorem find?_of_knows (consistent : memo.Consistent)
    (knows : memo.Knows operator children expression) :
    memo.find? operator.canonical children = some expression := by
  have same := knows.operator
  rw [consistent.canonical knows.stored] at same
  rw [← knows.children]
  exact find?_of_expression? consistent knows.stored same

theorem find?_of_not_knows (consistent : memo.Consistent)
    (unknown : ∀ expression, ¬ memo.Knows operator children expression) :
    memo.find? operator.canonical children = none := by
  cases found : memo.find? operator.canonical children with
  | none => rfl
  | some expression =>
      rcases expression?_of_find? found with ⟨-, children_eq, same⟩
      have stored := consistent.find?_id found
      rw [← consistent.canonical stored] at same
      exact (unknown expression ⟨stored, same, children_eq⟩).elim

theorem not_creates_self : ¬ memo.Creates expression memo := by
  intro creates
  have sizes := congrArg Array.size creates.expressions
  rw [Array.size_push] at sizes
  exact Nat.succ_ne_self _ sizes.symm

theorem creates_push (exists_ : group < memo.groups.size) :
    memo.Creates ⟨memo.expressions.size, group, operator, children, origin, .empty⟩
      (memo.push group operator children origin) where
  expressions := rfl
  group := by
    rcases group?_of_lt exists_ with ⟨held, found⟩
    rw [group?_push, if_pos rfl, found]
    rfl
  others := fun different => by rw [group?_push, if_neg (Ne.symm different)]

theorem creates_opened_push :
    memo.Creates ⟨memo.expressions.size, memo.groups.size, operator, children, origin, .empty⟩
      (memo.opened.push memo.groups.size operator children origin) where
  expressions := rfl
  group := by
    have missing : memo.group? memo.groups.size = none := by simp [group?]
    rw [group?_push, if_pos rfl, group?_opened, if_pos rfl, missing]
    rfl
  others := by
    intro id different
    rw [group?_push, if_neg (Ne.symm different), group?_opened, if_neg different]

/-- Insertion into a group of its own: what it reports, and when it creates an expression. -/
theorem add_exact (consistent : memo.Consistent) (operator : Operator) (children : List GroupId)
    (origin : Option RuleId) :
    ((∃ created, memo.Creates created (memo.add operator children origin).1) ↔
      ∀ known, ¬ memo.Knows operator children known) ∧
    (∀ known, memo.Knows operator children known →
      memo.add operator children origin = (memo, known.group, known.id)) ∧
    ((∀ known, ¬ memo.Knows operator children known) →
      memo.Creates ⟨memo.expressions.size, memo.groups.size, operator.canonical, children, origin,
        .empty⟩ (memo.add operator children origin).1 ∧
      (memo.add operator children origin).2 = (memo.groups.size, memo.expressions.size)) := by
  have of_known (known : Expression) (knows : memo.Knows operator children known) :
      memo.add operator children origin = (memo, known.group, known.id) := by
    rw [add, find?_of_knows consistent knows]
  have of_unknown (unknown : ∀ known, ¬ memo.Knows operator children known) :
      memo.add operator children origin =
        (memo.opened.push memo.groups.size operator.canonical children origin, memo.groups.size,
          memo.expressions.size) := by
    rw [add, find?_of_not_knows consistent unknown]
    rfl
  refine ⟨⟨?_, ?_⟩, of_known, ?_⟩
  · rintro ⟨created, creates⟩ known knows
    rw [of_known known knows] at creates
    exact not_creates_self creates
  · intro unknown
    rw [of_unknown unknown]
    exact ⟨_, creates_opened_push⟩
  · intro unknown
    rw [of_unknown unknown]
    exact ⟨creates_opened_push, rfl⟩

/-- Insertion into an existing group: what it reports, and when it creates an expression. -/
theorem addTo_exact (consistent : memo.Consistent) (exists_ : group < memo.groups.size)
    (operator : Operator) (children : List GroupId) (origin : Option RuleId) :
    ((∃ larger insertion created, memo.addTo group operator children origin =
        .ok (larger, insertion) ∧ memo.Creates created larger) ↔
      ∀ known, ¬ memo.Knows operator children known) ∧
    (∀ known, memo.Knows operator children known → memo.addTo group operator children origin =
      .ok (memo, if known.group = group then .duplicate known.id
        else .elsewhere known.id known.group)) ∧
    ((∀ known, ¬ memo.Knows operator children known) →
      ∃ larger, memo.addTo group operator children origin =
          .ok (larger, .added memo.expressions.size) ∧
        memo.Creates ⟨memo.expressions.size, group, operator.canonical, children, origin, .empty⟩
          larger) := by
  have of_known (known : Expression) (knows : memo.Knows operator children known) :
      memo.addTo group operator children origin =
        .ok (memo, if known.group = group then .duplicate known.id
          else .elsewhere known.id known.group) := by
    rw [addTo, find?_of_knows consistent knows]
    dsimp only
    split
    · rfl
    · rfl
  have of_unknown (unknown : ∀ known, ¬ memo.Knows operator children known) :
      memo.addTo group operator children origin =
        .ok (memo.push group operator.canonical children origin,
          .added memo.expressions.size) := by
    rw [addTo, find?_of_not_knows consistent unknown]
    dsimp only
    rw [if_pos (by simpa [holdsGroup] using exists_)]
  refine ⟨⟨?_, ?_⟩, of_known, ?_⟩
  · rintro ⟨larger, insertion, created, added, creates⟩ known knows
    rw [of_known known knows] at added
    cases added
    exact not_creates_self creates
  · intro unknown
    exact ⟨_, _, _, of_unknown unknown, creates_push exists_⟩
  · intro unknown
    exact ⟨_, of_unknown unknown, creates_push exists_⟩

end Insertion

/-! ## The lists of the groups -/

/-- The lists of all groups are in the order of insertion, and no group is empty. -/
structure Ordered (memo : Memo) : Prop where
  ascending : ∀ {id group}, memo.group? id = some group →
    group.logical.Pairwise (· < ·) ∧ group.physical.Pairwise (· < ·)
  inhabited : ∀ {id group}, memo.group? id = some group → group.expressions ≠ []

section Ordered

variable {memo larger : Memo} {expression : Expression}

/-- Numbers in ascending order may be followed by a larger one. -/
theorem ascending_append {members : List ExprId} {last : ExprId}
    (ascending : members.Pairwise (· < ·)) (before : ∀ member ∈ members, member < last) :
    (members ++ [last]).Pairwise (· < ·) := by
  refine List.pairwise_append.mpr ⟨ascending, List.pairwise_singleton _ _, ?_⟩
  intro member member_mem other other_mem
  rw [List.mem_singleton.mp other_mem]
  exact before member member_mem

theorem ascending_push {group : Group} {id : ExprId} {logical : Bool}
    (ascending : group.logical.Pairwise (· < ·) ∧ group.physical.Pairwise (· < ·))
    (before : ∀ member ∈ group.expressions, member < id) :
    (group.push id logical).logical.Pairwise (· < ·) ∧
      (group.push id logical).physical.Pairwise (· < ·) := by
  cases logical with
  | true =>
      exact ⟨ascending_append ascending.1 fun member member_mem =>
        before member (List.mem_append_left _ member_mem), ascending.2⟩
  | false =>
      exact ⟨ascending.1, ascending_append ascending.2 fun member member_mem =>
        before member (List.mem_append_right _ member_mem)⟩

theorem expressions_push_ne_nil (group : Group) (id : ExprId) (logical : Bool) :
    (group.push id logical).expressions ≠ [] := by
  cases logical <;> simp [Group.push, Group.expressions]

theorem Consistent.exists_of_mem (consistent : memo.Consistent) {id : GroupId} {group : Group}
    (found : memo.group? id = some group) {member : ExprId} (member_mem : member ∈ group.expressions) :
    ∃ expression, memo.expression? member = some expression ∧ expression.group = id := by
  rcases List.mem_append.mp member_mem with logical | physical
  · rcases consistent.logical found logical with ⟨expression, stored, group_eq, -⟩
    exact ⟨expression, stored, group_eq⟩
  · rcases consistent.physical found physical with ⟨expression, stored, group_eq, -⟩
    exact ⟨expression, stored, group_eq⟩

/-- A new expression comes last in its group. -/
theorem Ordered.creates (ordered : memo.Ordered) (consistent : memo.Consistent)
    (creates : memo.Creates expression larger) (last : expression.id = memo.expressions.size) :
    larger.Ordered := by
  have pushed : (((memo.group? expression.group).getD .empty).push expression.id
        expression.operator.isLogical).logical.Pairwise (· < ·) ∧
      (((memo.group? expression.group).getD .empty).push expression.id
        expression.operator.isLogical).physical.Pairwise (· < ·) := by
    cases found : memo.group? expression.group with
    | none => exact ascending_push (by simp [Group.empty]) (by simp [Group.empty, Group.expressions])
    | some group =>
        refine ascending_push (ordered.ascending found) ?_
        intro member member_mem
        rcases consistent.exists_of_mem found member_mem with ⟨stored, stored_eq, -⟩
        rw [last]
        exact lt_of_expression? stored_eq
  refine ⟨?_, ?_⟩
  · intro id group found
    by_cases here : id = expression.group
    · rw [here, creates.group] at found
      cases found
      exact pushed
    · rw [creates.others here] at found
      exact ordered.ascending found
  · intro id group found
    by_cases here : id = expression.group
    · rw [here, creates.group] at found
      cases found
      exact expressions_push_ne_nil _ _ _
    · rw [creates.others here] at found
      exact ordered.inhabited found

theorem Ordered.nodup (ordered : memo.Ordered) (consistent : memo.Consistent) {id : GroupId}
    {group : Group} (found : memo.group? id = some group) : group.expressions.Nodup := by
  rcases ordered.ascending found with ⟨logical, physical⟩
  refine List.nodup_append.mpr ⟨logical.imp Nat.ne_of_lt, physical.imp Nat.ne_of_lt, ?_⟩
  rintro member logical_mem _ physical_mem rfl
  rcases consistent.logical found logical_mem with ⟨expression, stored, -, isLogical⟩
  rcases consistent.physical found physical_mem with ⟨other, other_stored, -, isPhysical⟩
  rw [stored] at other_stored
  cases other_stored
  rw [isLogical] at isPhysical
  cases isPhysical

/-- Every expression is listed exactly once over all groups. -/
theorem Ordered.listed (ordered : memo.Ordered) (consistent : memo.Consistent) :
    (memo.groups.toList.flatMap Group.expressions).Perm (List.range memo.expressions.size) := by
  have found_of_mem {group : Group} (group_mem : group ∈ memo.groups.toList) :
      ∃ id, memo.group? id = some group :=
    Array.getElem?_of_mem (by simpa using group_mem)
  have nodup : (memo.groups.toList.flatMap Group.expressions).Nodup := by
    refine List.nodup_flatMap.mpr ⟨?_, List.pairwise_iff_getElem.mpr ?_⟩
    · intro group group_mem
      rcases found_of_mem group_mem with ⟨id, found⟩
      exact ordered.nodup consistent found
    · intro first second first_lt second_lt before member first_mem second_mem
      -- a member of two groups would be an expression of both
      have first_found : memo.group? first = some memo.groups.toList[first] := by
        simp only [group?, ← Array.getElem?_toList, List.getElem?_eq_getElem first_lt]
      have second_found : memo.group? second = some memo.groups.toList[second] := by
        simp only [group?, ← Array.getElem?_toList, List.getElem?_eq_getElem second_lt]
      rcases consistent.exists_of_mem first_found first_mem with ⟨expression, stored, group_eq⟩
      rcases consistent.exists_of_mem second_found second_mem with ⟨other, other_stored, other_eq⟩
      rw [stored] at other_stored
      cases other_stored
      exact Nat.ne_of_lt before (group_eq.symm.trans other_eq)
  refine (List.perm_ext_iff_of_nodup nodup List.nodup_range).mpr ?_
  intro id
  rw [List.mem_range, List.mem_flatMap]
  constructor
  · rintro ⟨group, group_mem, id_mem⟩
    rcases found_of_mem group_mem with ⟨place, found⟩
    rcases consistent.exists_of_mem found id_mem with ⟨expression, stored, -⟩
    exact lt_of_expression? stored
  · intro bounded
    have stored : memo.expression? id = some memo.expressions[id] := by
      simp [expression?, bounded]
    rcases consistent.housed stored with ⟨group, found, id_mem⟩
    refine ⟨group, by simpa using Array.mem_of_getElem? found, ?_⟩
    split at id_mem
    · exact List.mem_append_left _ id_mem
    · exact List.mem_append_right _ id_mem

/-- Neither marks nor flags change the lists of the groups. -/
theorem Ordered.same (ordered : memo.Ordered) (known : ∀ {id later}, larger.group? id = some later →
    ∃ before, memo.group? id = some before ∧ later.logical = before.logical ∧
      later.physical = before.physical) : larger.Ordered := by
  refine ⟨?_, ?_⟩
  · intro id later found
    rcases known found with ⟨before, before_found, logical_eq, physical_eq⟩
    rw [logical_eq, physical_eq]
    exact ordered.ascending before_found
  · intro id later found
    rcases known found with ⟨before, before_found, logical_eq, physical_eq⟩
    rw [Group.expressions, logical_eq, physical_eq]
    exact ordered.inhabited before_found

theorem Ordered.flagged (ordered : memo.Ordered) {id : GroupId} {group : Group} (goal : Goal)
    (found : memo.group? id = some group) : (memo.flagged id group goal).Ordered :=
  ordered.same fun later_found => group?_of_flagged found later_found

theorem Built.ordered (built : memo.Built) : memo.Ordered := by
  induction built with
  | empty => exact ⟨fun found => by simp [group?, Memo.empty] at found,
      fun found => by simp [group?, Memo.empty] at found⟩
  | @add middle operator children origin before ih =>
      have consistent := before.consistent
      rcases add_exact consistent operator children origin with ⟨-, known, fresh⟩
      by_cases unknown : ∀ expression, ¬ middle.Knows operator children expression
      · exact ih.creates consistent (fresh unknown).1 rfl
      · rcases not_forall_not.mp unknown with ⟨expression, knows⟩
        rw [known expression knows]
        exact ih
  | addTo before added ih =>
      rcases addTo_cases added with ⟨rfl, -⟩ | ⟨rfl, exists_, -⟩
      · exact ih
      · exact ih.creates before.consistent (creates_push exists_) rfl
  | markApplied before marked ih =>
      rcases marked_of_markApplied before.consistent marked with ⟨expression, -, rfl⟩
      exact ih.same fun found => ⟨_, found, rfl, rfl⟩
  | @sealGroup memo larger id goal seen isSealed before sealed ih =>
      cases found : memo.group? id with
      | none =>
          rw [Memo.sealGroup, Memo.group, found] at sealed
          cases sealed
      | some group =>
          rw [Memo.sealGroup, Memo.group, found] at sealed
          simp only [bind, Except.bind, pure, Except.pure] at sealed
          split at sealed
          · cases sealed
            exact ih
          · cases sealed
            exact ih.flagged goal found

end Ordered

/-! ## Sequences of insertions -/

namespace Inserted

variable {memo larger : Memo}

theorem built (inserted : memo.Inserted larger) (built : memo.Built) : larger.Built := by
  induction inserted with
  | none => exact built
  | add operator children origin _ ih => exact ih.add operator children origin
  | addTo _ added ih => exact ih.addTo added

/-- Whatever is inserted, the expressions stored before stay where and as they are. -/
theorem expressions_prefix (inserted : memo.Inserted larger) :
    memo.expressions.toList <+: larger.expressions.toList := by
  have push_prefix (memo : Memo) (group : GroupId) (operator : Operator) (children : List GroupId)
      (origin : Option RuleId) : memo.expressions.toList <+:
        (memo.push group operator children origin).expressions.toList := by
    simp [Memo.push]
  induction inserted with
  | none => exact List.prefix_rfl
  | @add middle operator children origin _ ih =>
      refine ih.trans ?_
      rw [Memo.add]
      split
      · exact List.prefix_rfl
      · exact push_prefix middle.opened _ _ _ _
  | @addTo middle larger group operator children origin insertion _ added ih =>
      refine ih.trans ?_
      rcases addTo_cases added with ⟨rfl, -⟩ | ⟨rfl, -⟩
      · exact List.prefix_rfl
      · exact push_prefix middle _ _ _ _

theorem stored (inserted : memo.Inserted larger) {id : ExprId} {expression : Expression}
    (stored : memo.expression? id = some expression) : larger.expression? id = some expression := by
  rcases inserted.expressions_prefix with ⟨later, larger_eq⟩
  have bounded := lt_of_expression? stored
  rw [expression?, ← Array.getElem?_toList] at stored ⊢
  rw [← larger_eq, List.getElem?_append_left (by simpa using bounded)]
  exact stored

theorem stocked (inserted : empty.Inserted memo) : memo.Stocked := by
  have consistent := (inserted.built .empty).consistent
  have ordered := (inserted.built .empty).ordered
  refine ⟨?_, consistent.unique, consistent.canonical, ordered.listed consistent, ?_, ?_,
    ordered.ascending, ordered.inhabited⟩
  · intro id bounded
    have stored : memo.expression? id = some memo.expressions[id] := by
      simp [expression?, bounded]
    exact ⟨_, stored, consistent.numbered stored⟩
  · intro id group found member
    refine ⟨consistent.logical found, ?_⟩
    rintro ⟨expression, stored, rfl, isLogical⟩
    rcases consistent.housed stored with ⟨held, held_found, member_mem⟩
    rw [found] at held_found
    cases held_found
    rwa [isLogical, if_pos rfl] at member_mem
  · intro id group found member
    refine ⟨consistent.physical found, ?_⟩
    rintro ⟨expression, stored, rfl, isPhysical⟩
    rcases consistent.housed stored with ⟨held, held_found, member_mem⟩
    rw [found] at held_found
    cases held_found
    rwa [isPhysical, if_neg Bool.false_ne_true] at member_mem

end Inserted

/--
Whatever has been inserted, the memo is a store without duplicates: an insertion creates an
expression exactly if no group holds the shape, and otherwise reports the stored one and changes
nothing. Expressions never change, and all of them are listed exactly once.
-/
theorem insertions_exact {memo : Memo} (inserted : empty.Inserted memo) :
    memo.Stocked ∧
    (∀ operator children origin,
      ((∃ created, memo.Creates created (memo.add operator children origin).1) ↔
        ∀ known, ¬ memo.Knows operator children known) ∧
      (∀ known, memo.Knows operator children known →
        memo.add operator children origin = (memo, known.group, known.id)) ∧
      ((∀ known, ¬ memo.Knows operator children known) →
        memo.Creates ⟨memo.expressions.size, memo.groups.size, operator.canonical, children, origin,
          .empty⟩ (memo.add operator children origin).1 ∧
        (memo.add operator children origin).2 = (memo.groups.size, memo.expressions.size))) ∧
    (∀ group operator children origin, group < memo.groups.size →
      ((∃ larger insertion created, memo.addTo group operator children origin =
          .ok (larger, insertion) ∧ memo.Creates created larger) ↔
        ∀ known, ¬ memo.Knows operator children known) ∧
      (∀ known, memo.Knows operator children known →
        memo.addTo group operator children origin =
          .ok (memo, if known.group = group then .duplicate known.id
            else .elsewhere known.id known.group)) ∧
      ((∀ known, ¬ memo.Knows operator children known) →
        ∃ larger, memo.addTo group operator children origin =
            .ok (larger, .added memo.expressions.size) ∧
          memo.Creates ⟨memo.expressions.size, group, operator.canonical, children, origin, .empty⟩
            larger)) ∧
    ∀ larger, memo.Inserted larger → memo.expressions.toList <+: larger.expressions.toList := by
  have consistent := (inserted.built .empty).consistent
  refine ⟨inserted.stocked, ?_, ?_, ?_⟩
  · exact fun operator children origin => add_exact consistent operator children origin
  · intro group operator children origin exists_
    exact addTo_exact consistent exists_ operator children origin
  · exact fun larger later => later.expressions_prefix

/-- Two tables and their join on two columns. -/
def joined : Memo :=
  let scan (memo : Memo) (table : String) : Memo :=
    (memo.add (.logical (.scan ⟨"public", table⟩ [] none)) [] none).1
  ((scan (scan empty "a") "b").add (.logical (.join .inner
    (.and [.equality "a" "x" "b" "x", .equality "a" "y" "b" "y"]))) [0, 1] none).1

/-- The two tables' join with its conjuncts in another order. -/
def reordered : Operator :=
  .logical (.join .inner (.and [.equality "a" "y" "b" "y", .equality "a" "x" "b" "x"]))

/-- In whatever group it is inserted, the reordered join is found where the join is stored. -/
theorem insertions_exact_join : joined.Stocked ∧
    joined.add reordered [0, 1] (some 1) = (joined, 2, 2) ∧
    joined.addTo 2 reordered [0, 1] none = .ok (joined, .duplicate 2) ∧
    joined.addTo 0 reordered [0, 1] none = .ok (joined, .elsewhere 2 2) := by
  have inserted : empty.Inserted joined := .add _ _ _ (.add _ _ _ (.add _ _ _ .none))
  rcases insertions_exact inserted with ⟨stocked, add, addTo, -⟩
  have checked : (joined.expression? 2).any (fun known => known.id == 2 && known.group == 2 &&
      known.children == [0, 1] && known.operator.canonical.same reordered.canonical) = true := by
    decide +kernel
  rcases (Option.any_eq_true _ _).mp checked with ⟨known, stored, checked⟩
  simp only [Bool.and_eq_true, beq_iff_eq] at checked
  rcases checked with ⟨⟨⟨id_eq, group_eq⟩, children⟩, same⟩
  have knows : joined.Knows reordered [0, 1] known := ⟨by rwa [id_eq], same, children⟩
  have sizes : joined.groups.size = 3 := by decide +kernel
  refine ⟨stocked, ?_, ?_, ?_⟩
  · rw [(add _ _ _).2.1 known knows, id_eq, group_eq]
  · rw [(addTo 2 _ _ _ (by rw [sizes]; decide)).2.1 known knows, id_eq, group_eq, if_pos rfl]
  · rw [(addTo 0 _ _ _ (by rw [sizes]; decide)).2.1 known knows, id_eq, group_eq,
      if_neg (by decide)]

end Memo

end Cascades
