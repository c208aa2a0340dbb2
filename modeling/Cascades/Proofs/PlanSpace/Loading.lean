import Cascades.PlanSpace.Basic
import Cascades.Proofs.Forest.Contents
import Cascades.Proofs.Memo.Logical
import Cascades.Proofs.Traversal

/-!
# Loading a plan space

A plan space is loaded group by group. What it holds is determined by the expressions that have been
loaded: trees may start with the expressions of the root group, and the slots of a loaded expression
list the expressions of its child groups. Loading fails only at a missing child group or at an
expression that lies in a child group of its own.
-/

namespace Cascades

open Forest (Content)

/-- The plans that an operator belongs to. -/
def Operator.planKind (operator : Operator) : PlanKind :=
  if operator.isLogical then .logical else .physical

namespace Operator

theorem eq_logical {operator : Operator} (kind_eq : operator.planKind = .logical) :
    ∃ logical, operator = .logical logical := by
  cases operator with
  | logical logical => exact ⟨logical, rfl⟩
  | physical physical => cases kind_eq

theorem eq_physical {operator : Operator} (kind_eq : operator.planKind = .physical) :
    ∃ physical, operator = .physical physical := by
  cases operator with
  | logical logical => cases kind_eq
  | physical physical => exact ⟨physical, rfl⟩

end Operator

/-- The expressions of a kind in a group, none if it does not exist. -/
def PlanKind.members (kind : PlanKind) (memo : Memo) (id : GroupId) : List ExprId :=
  match memo.group? id with
  | some group => kind.expressions group
  | none => []

/-- The child groups of an expression, none if it does not exist. -/
def Memo.inputs (memo : Memo) (id : ExprId) : List GroupId :=
  match memo.expression? id with
  | some expression => expression.children
  | none => []

/-- An expression of a kind in a group has another group as an input. -/
def Memo.LeadsTo (memo : Memo) (kind : PlanKind) (id next : GroupId) : Prop :=
  ∃ member ∈ kind.members memo id, next ∈ memo.inputs member

section Members

variable {memo : Memo} {kind : PlanKind}

theorem PlanKind.members_eq {id : GroupId} {group : Group} (found : memo.group? id = some group) :
    kind.members memo id = kind.expressions group := by
  rw [members, found]

theorem PlanKind.lt_of_mem_members {id : GroupId} {member : ExprId}
    (member_mem : member ∈ kind.members memo id) : id < memo.groups.size := by
  rw [members] at member_mem
  split at member_mem
  · rename_i group found
    exact Memo.lt_of_group? found
  · cases member_mem

theorem Memo.inputs_eq {id : ExprId} {expression : Expression}
    (stored : memo.expression? id = some expression) : memo.inputs id = expression.children := by
  rw [inputs, stored]

/-- The expressions of a kind in a group are those that are stored, and say so. -/
theorem Memo.Consistent.mem_members (consistent : memo.Consistent) {id : GroupId} {member : ExprId} :
    member ∈ kind.members memo id ↔ ∃ expression, memo.expression? member = some expression ∧
      expression.group = id ∧ expression.operator.planKind = kind := by
  constructor
  · intro member_mem
    rw [PlanKind.members] at member_mem
    split at member_mem
    · rename_i group found
      cases kind with
      | physical =>
          rcases consistent.physical found member_mem with ⟨expression, stored, group_eq, physical⟩
          exact ⟨expression, stored, group_eq, by simp [Operator.planKind, physical]⟩
      | logical =>
          rcases consistent.logical found member_mem with ⟨expression, stored, group_eq, logical⟩
          exact ⟨expression, stored, group_eq, by simp [Operator.planKind, logical]⟩
    · cases member_mem
  · rintro ⟨expression, stored, rfl, rfl⟩
    rcases consistent.housed stored with ⟨group, found, member_mem⟩
    rw [PlanKind.members_eq found, Operator.planKind]
    cases logical : expression.operator.isLogical with
    | true => simpa [logical, PlanKind.expressions] using member_mem
    | false => simpa [logical, PlanKind.expressions] using member_mem

theorem Memo.Consistent.stored_of_mem (consistent : memo.Consistent) {id : GroupId}
    {member : ExprId} (member_mem : member ∈ kind.members memo id) :
    ∃ expression, memo.expression? member = some expression ∧ expression.group = id := by
  rcases consistent.mem_members.mp member_mem with ⟨expression, stored, group_eq, -⟩
  exact ⟨expression, stored, group_eq⟩

/-- No shape is stored twice, in whatever groups. -/
theorem Memo.Consistent.shape_unique (consistent : memo.Consistent) {group other : GroupId}
    {id twin : ExprId} {expression found : Expression} (id_mem : id ∈ kind.members memo group)
    (twin_mem : twin ∈ kind.members memo other) (stored : memo.expression? id = some expression)
    (twin_stored : memo.expression? twin = some found) (children_eq : expression.children = found.children)
    (same : expression.operator.same found.operator = true) :
    id = twin ∧ group = other ∧ expression = found := by
  obtain rfl := consistent.unique stored twin_stored children_eq same
  obtain rfl := Option.some.inj (stored.symm.trans twin_stored)
  rcases consistent.stored_of_mem id_mem with ⟨first, first_stored, rfl⟩
  rcases consistent.stored_of_mem twin_mem with ⟨second, second_stored, rfl⟩
  obtain rfl := Option.some.inj (first_stored.symm.trans second_stored)
  exact ⟨rfl, rfl, rfl⟩

theorem PlanSpace.mem_successors {id next : GroupId} :
    next ∈ PlanSpace.successors memo kind id ↔ memo.LeadsTo kind id next := by
  rw [PlanSpace.successors, Memo.LeadsTo, PlanKind.members]
  cases memo.group? id with
  | none => simp
  | some group => exact List.mem_flatMap

theorem PlanSpace.successors_eq_nil {id : GroupId} (missing : memo.groups.size ≤ id) :
    PlanSpace.successors memo kind id = [] := by
  rw [List.eq_nil_iff_forall_not_mem]
  intro next next_mem
  rcases PlanSpace.mem_successors.mp next_mem with ⟨member, member_mem, -⟩
  exact absurd (PlanKind.lt_of_mem_members member_mem) (Nat.not_lt_of_le missing)

end Members

namespace PlanSpace

variable {memo : Memo} {kind : PlanKind} {space after : PlanSpace} {content : Content ExprId}

/-- What a plan space holds after some expressions have been loaded. -/
def loaded (memo : Memo) (kind : PlanKind) (roots done : List ExprId) : Content ExprId where
  has := fun id => id ∈ roots ∨ id ∈ done ∨
    ∃ parent ∈ done, ∃ child ∈ memo.inputs parent, id ∈ kind.members memo child
  starts := fun id => id ∈ roots
  fills := fun parent slot id => parent ∈ done ∧
    ∃ child, (memo.inputs parent)[slot]? = some child ∧ id ∈ kind.members memo child
  arity := fun id => if id ∈ done then (memo.inputs id).length else 0

/-- What a plan space holds after the slots of an expression have been filled from some slot on. -/
def filled (content : Content ExprId) (memo : Memo) (kind : PlanKind) (id : ExprId) (slot : Nat)
    (children : List GroupId) : Content ExprId :=
  { content with
    has := fun other => content.has other ∨
      ∃ child ∈ children, other ∈ kind.members memo child
    fills := fun parent position other => content.fills parent position other ∨
      (parent = id ∧ ∃ offset child, children[offset]? = some child ∧ position = slot + offset ∧
        other ∈ kind.members memo child) }

/-- A plan space that was filled by insertions, and what it holds. -/
structure Holds (space : PlanSpace) (content : Content ExprId) : Prop where
  reached : space.Reached
  shows : space.Shows content

theorem Holds.empty : Holds Forest.empty .none where
  reached := ⟨[], rfl⟩
  shows := .empty

theorem Holds.congr {other : Content ExprId} (holds : space.Holds content)
    (has : ∀ id, other.has id ↔ content.has id) (starts : ∀ id, other.starts id ↔ content.starts id)
    (fills : ∀ parent slot id, other.fills parent slot id ↔ content.fills parent slot id)
    (arity : ∀ id, other.arity id = content.arity id) : space.Holds other :=
  ⟨holds.reached, holds.shows.congr has starts fills arity⟩

theorem Holds.insertRoots (holds : space.Holds content) (roots : List ExprId) :
    PlanSpace.Holds (roots.foldl Forest.insertRoot space) ((content.add roots).start roots) := by
  induction roots generalizing space content with
  | nil =>
      refine holds.congr ?_ ?_ (fun _ _ _ => .rfl) (fun _ => rfl) <;>
        simp [Content.add, Content.start]
  | cons id roots ih =>
      have first : PlanSpace.Holds (Forest.insertRoot space id) ((content.add [id]).start [id]) :=
        ⟨holds.reached.perform (.insertRoot id), holds.shows.insertRoot id⟩
      refine (ih first).congr ?_ ?_ (fun _ _ _ => .rfl) (fun _ => rfl) <;>
        simp [Content.add, Content.start, or_assoc]

theorem insertEdge_ok {id other : ExprId} {slot : Nat}
    (inserted : space.insertEdge id slot other = .ok after) :
    space.insertEdge? id slot other = some after := by
  rw [Forest.insertEdge] at inserted
  split at inserted
  · rename_i extended accepted
    cases inserted
    exact accepted
  · cases inserted

theorem Holds.insertEdge (holds : space.Holds content) {id other : ExprId} {slot : Nat}
    (declared : slot < content.arity id) (inserted : space.insertEdge id slot other = .ok after) :
    after.Holds ((content.add [other]).fill id slot [other]) where
  reached := by
    have performed := holds.reached.perform (.insertEdge id slot other)
    rw [Forest.perform, inserted] at performed
    exact performed
  shows := holds.shows.insertEdge? declared (insertEdge_ok inserted)

theorem Holds.addAlternatives (holds : space.Holds content) {id : ExprId} {slot : Nat}
    (declared : slot < content.arity id) {alternatives : List ExprId}
    (added : space.addAlternatives id slot alternatives = .ok after) :
    after.Holds ((content.add alternatives).fill id slot alternatives) := by
  induction alternatives generalizing space content with
  | nil =>
      cases added
      refine holds.congr ?_ (fun _ => .rfl) ?_ (fun _ => rfl) <;> simp [Content.add, Content.fill]
  | cons other rest ih =>
      rw [PlanSpace.addAlternatives] at added
      simp only [bind, Except.bind] at added
      split at added
      · cases added
      · rename_i middle inserted
        refine (ih (holds.insertEdge declared inserted) declared added).congr ?_ (fun _ => .rfl) ?_
          (fun _ => rfl)
        · simp [Content.add, Content.fill, or_assoc]
        · simp [Content.add, Content.fill, or_assoc, ← and_or_left]

theorem Holds.addChildren (holds : space.Holds content) {id : ExprId} {slot : Nat}
    {children : List GroupId} (declared : slot + children.length ≤ content.arity id)
    (added : PlanSpace.addChildren memo kind space id slot children = .ok after) :
    after.Holds (filled content memo kind id slot children) := by
  induction children generalizing space content slot with
  | nil =>
      cases added
      refine holds.congr ?_ (fun _ => .rfl) ?_ (fun _ => rfl) <;> simp [filled]
  | cons child rest ih =>
      rw [List.length_cons] at declared
      rw [PlanSpace.addChildren] at added
      split at added
      · cases added
      · rename_i group found
        simp only [bind, Except.bind] at added
        split at added
        · cases added
        · rename_i middle alternatives
          rw [← PlanKind.members_eq found] at alternatives
          have first := holds.addAlternatives (by omega) alternatives
          refine (ih first (by simpa [Content.add, Content.fill] using by omega) added).congr ?_
            (fun _ => .rfl) ?_ (fun _ => rfl)
          · intro other
            simp [filled, Content.add, Content.fill, or_assoc]
          · intro parent position other
            simp only [filled, Content.add, Content.fill, or_assoc]
            refine or_congr_right ?_
            constructor
            · rintro ⟨rfl, offset, below, at_offset, rfl, other_mem⟩
              cases offset with
              | zero =>
                  obtain rfl := Option.some.inj at_offset
                  exact .inl ⟨rfl, rfl, other_mem⟩
              | succ offset => exact .inr ⟨rfl, offset, below, at_offset, by omega, other_mem⟩
            · rintro (⟨rfl, rfl, other_mem⟩ | ⟨rfl, offset, below, at_offset, rfl, other_mem⟩)
              · exact ⟨rfl, 0, child, rfl, rfl, other_mem⟩
              · exact ⟨rfl, offset + 1, below, at_offset, by omega, other_mem⟩

/-- Loading an expression adds it to those that have been loaded. -/
theorem Holds.addExpression {roots done : List ExprId} (holds : space.Holds (loaded memo kind roots done))
    {expression : Expression} (stored : memo.expression? expression.id = some expression)
    (added : PlanSpace.addChildren memo kind
      (space.insertNode expression.id expression.children.length) expression.id 0
      expression.children = .ok after) :
    after.Holds (loaded memo kind roots (done ++ [expression.id])) := by
  have inputs_eq := Memo.inputs_eq stored
  have declared : PlanSpace.Holds
      (Forest.insertNode space expression.id expression.children.length)
      (((loaded memo kind roots done).add [expression.id]).declare expression.id
        expression.children.length) :=
    ⟨holds.reached.perform (.insertNode ..), holds.shows.insertNode ..⟩
  refine (declared.addChildren (by simp [Content.declare]) added).congr ?_ (fun _ => .rfl) ?_ ?_
  · intro id
    simp only [loaded, filled, Content.add, Content.declare, List.mem_append, List.mem_singleton]
    constructor
    · rintro (root | (old | rfl) | ⟨parent, old | rfl, below⟩)
      · exact .inl (.inl (.inl root))
      · exact .inl (.inl (.inr (.inl old)))
      · exact .inl (.inr rfl)
      · exact .inl (.inl (.inr (.inr ⟨parent, old, below⟩)))
      · exact .inr (inputs_eq ▸ below)
    · rintro (((root | old | ⟨parent, old, below⟩) | rfl) | below)
      · exact .inl root
      · exact .inr (.inl (.inl old))
      · exact .inr (.inr ⟨parent, .inl old, below⟩)
      · exact .inr (.inl (.inr rfl))
      · exact .inr (.inr ⟨_, .inr rfl, inputs_eq ▸ below⟩)
  · intro parent slot id
    simp only [loaded, filled, Content.add, Content.declare, List.mem_append, List.mem_singleton]
    constructor
    · rintro ⟨old | rfl, child, at_slot, id_mem⟩
      · exact .inl ⟨old, child, at_slot, id_mem⟩
      · exact .inr ⟨rfl, slot, child, inputs_eq ▸ at_slot, by omega, id_mem⟩
    · rintro (⟨old, child, at_slot, id_mem⟩ | ⟨rfl, offset, child, at_offset, rfl, id_mem⟩)
      · exact ⟨.inl old, child, at_slot, id_mem⟩
      · exact ⟨.inr rfl, child, by rwa [inputs_eq, Nat.zero_add], id_mem⟩
  · intro id
    simp only [loaded, filled, Content.add, Content.declare, List.mem_append, List.mem_singleton]
    by_cases same : id = expression.id
    · subst same
      rw [Function.update_self, if_pos (.inr rfl), inputs_eq]
      split <;> simp
    · simp [same]

theorem Holds.addExpressions {roots done : List ExprId}
    (holds : space.Holds (loaded memo kind roots done)) {expressions : List Expression}
    (stored : ∀ expression ∈ expressions, memo.expression? expression.id = some expression)
    (added : PlanSpace.addExpressions memo kind space expressions = .ok after) :
    after.Holds (loaded memo kind roots (done ++ expressions.map Expression.id)) := by
  induction expressions generalizing space done with
  | nil =>
      cases added
      simpa using holds
  | cons expression rest ih =>
      rw [PlanSpace.addExpressions] at added
      simp only [bind, Except.bind] at added
      split at added
      · cases added
      · rename_i middle first
        have next := holds.addExpression (stored expression List.mem_cons_self) first
        rw [List.map_cons, ← List.singleton_append, ← List.append_assoc]
        exact ih next (fun other other_mem => stored other (List.mem_cons_of_mem _ other_mem)) added

/-- The expressions of an existing group can be read. -/
theorem expressionsOf_members (consistent : memo.Consistent) (kind : PlanKind) {id : GroupId}
    {group : Group} (found : memo.group? id = some group) :
    ∃ expressions, memo.expressionsOf (kind.expressions group) = .ok expressions ∧
      expressions.map Expression.id = kind.members memo id ∧
        ∀ expression ∈ expressions, memo.expression? expression.id = some expression := by
  rw [← PlanKind.members_eq found]
  have stored : ∀ member ∈ kind.members memo id, ∃ expression,
      memo.expression? member = some expression := by
    intro member member_mem
    rcases consistent.stored_of_mem member_mem with ⟨expression, stored, -⟩
    exact ⟨expression, stored⟩
  refine ⟨_, Memo.expressionsOf_eq stored, ?_, ?_⟩
  · generalize kind.members memo id = members at stored
    induction members with
    | nil => rfl
    | cons member rest ih =>
        rcases stored member List.mem_cons_self with ⟨expression, member_stored⟩
        rw [List.filterMap_cons_some member_stored, List.map_cons,
          consistent.numbered member_stored,
          ih fun other other_mem => stored other (List.mem_cons_of_mem member other_mem)]
  · intro expression expression_mem
    rcases List.mem_filterMap.mp expression_mem with ⟨member, -, member_stored⟩
    rwa [consistent.numbered member_stored]

theorem Holds.addGroups (consistent : memo.Consistent) {roots done : List ExprId}
    (holds : space.Holds (loaded memo kind roots done)) {groups : List GroupId}
    (added : PlanSpace.addGroups memo kind space groups = .ok (.ok after)) :
    after.Holds (loaded memo kind roots (done ++ groups.flatMap (kind.members memo))) := by
  induction groups generalizing space done with
  | nil =>
      cases added
      simpa using holds
  | cons id rest ih =>
      rw [PlanSpace.addGroups, Memo.group] at added
      cases found : memo.group? id with
      | none =>
          rw [found] at added
          cases added
      | some group =>
          rcases expressionsOf_members consistent kind found with
            ⟨expressions, read, ids_eq, stored⟩
          rw [found] at added
          simp only [bind, Except.bind, read, pure, Except.pure] at added
          split at added
          · cases added
          · rename_i middle first
            have next := ih (holds.addExpressions stored first) added
            rwa [ids_eq, List.append_assoc] at next

/-- The groups that a group reaches through expressions of a kind. -/
def below (memo : Memo) (kind : PlanKind) (root : GroupId) : List GroupId :=
  Traversal.breadthFirst memo.groups.size (successors memo kind) root

theorem mem_below {root id : GroupId} :
    id ∈ below memo kind root ↔ Relation.ReflTransGen (memo.LeadsTo kind) root id := by
  have leadsTo : (fun group next => next ∈ successors memo kind group) = memo.LeadsTo kind :=
    funext fun _ => funext fun _ => propext mem_successors
  rw [← leadsTo]
  exact Traversal.mem_breadthFirst fun _ missing => successors_eq_nil missing

/-- What a plan space holds once it has been built. -/
theorem holds_of_build (consistent : memo.Consistent) {root : GroupId}
    (built : build memo root kind = .ok (.ok space)) :
    space.Holds (loaded memo kind (kind.members memo root)
      ((below memo kind root).flatMap (kind.members memo))) := by
  rw [build] at built
  split at built
  · cases built
  · rename_i group found
    dsimp only at built
    rw [← PlanKind.members_eq found] at built
    have rooted : PlanSpace.Holds ((kind.members memo root).foldl Forest.insertRoot Forest.empty)
        (loaded memo kind (kind.members memo root) []) :=
      (Holds.empty.insertRoots (kind.members memo root)).congr (by simp [loaded, Content.none,
        Content.add, Content.start]) (by simp [loaded, Content.none, Content.add, Content.start])
        (by simp [loaded, Content.none, Content.add, Content.start]) (by simp [loaded,
          Content.none, Content.add, Content.start])
    exact rooted.addGroups consistent built

/-! ## Loading does not fail -/

/-- Nothing stands in the way of loading an expression. -/
def Loadable (memo : Memo) (kind : PlanKind) (id : ExprId) : Prop :=
  ∀ child ∈ memo.inputs id, child < memo.groups.size ∧ id ∉ kind.members memo child

theorem addAlternatives_total {id : ExprId} {alternatives : List ExprId} (apart : id ∉ alternatives)
    (space : PlanSpace) (slot : Nat) :
    ∃ after, space.addAlternatives id slot alternatives = .ok after := by
  induction alternatives generalizing space with
  | nil => exact ⟨space, rfl⟩
  | cons other rest ih =>
      rw [List.mem_cons, not_or] at apart
      rw [addAlternatives, Forest.insertEdge, Forest.insertEdge?, if_neg apart.1]
      exact ih apart.2 _

theorem addChildren_total {id : ExprId} {children : List GroupId}
    (loadable : ∀ child ∈ children, child < memo.groups.size ∧ id ∉ kind.members memo child)
    (space : PlanSpace) (slot : Nat) :
    ∃ after, addChildren memo kind space id slot children = .ok after := by
  induction children generalizing space slot with
  | nil => exact ⟨space, rfl⟩
  | cons child rest ih =>
      rcases loadable child List.mem_cons_self with ⟨exists_, apart⟩
      rcases Memo.group?_of_lt exists_ with ⟨group, found⟩
      rw [PlanKind.members_eq found] at apart
      rcases addAlternatives_total apart space slot with ⟨middle, alternatives⟩
      rw [addChildren, found]
      simp only [alternatives, bind, Except.bind]
      exact ih (fun other other_mem => loadable other (List.mem_cons_of_mem child other_mem)) _ _

theorem addExpressions_total {expressions : List Expression}
    (stored : ∀ expression ∈ expressions, memo.expression? expression.id = some expression)
    (loadable : ∀ expression ∈ expressions, Loadable memo kind expression.id)
    (space : PlanSpace) : ∃ after, addExpressions memo kind space expressions = .ok after := by
  induction expressions generalizing space with
  | nil => exact ⟨space, rfl⟩
  | cons expression rest ih =>
      have first := loadable expression List.mem_cons_self
      rw [Loadable, Memo.inputs_eq (stored expression List.mem_cons_self)] at first
      rcases addChildren_total first
        (space.insertNode expression.id expression.children.length) 0 with ⟨middle, added⟩
      rw [addExpressions]
      simp only [added, bind, Except.bind]
      exact ih (fun other other_mem => stored other (List.mem_cons_of_mem expression other_mem))
        (fun other other_mem => loadable other (List.mem_cons_of_mem expression other_mem)) middle

theorem addGroups_total (consistent : memo.Consistent) {groups : List GroupId}
    (exist : ∀ id ∈ groups, id < memo.groups.size)
    (loadable : ∀ id ∈ groups, ∀ member ∈ kind.members memo id, Loadable memo kind member)
    (space : PlanSpace) : ∃ after, addGroups memo kind space groups = .ok (.ok after) := by
  induction groups generalizing space with
  | nil => exact ⟨space, rfl⟩
  | cons id rest ih =>
      rcases Memo.group?_of_lt (exist id List.mem_cons_self) with ⟨group, found⟩
      rcases expressionsOf_members consistent kind found with
        ⟨expressions, read, ids_eq, stored⟩
      have first : ∀ expression ∈ expressions, Loadable memo kind expression.id := by
        intro expression expression_mem
        refine loadable id List.mem_cons_self expression.id ?_
        rw [← ids_eq]
        exact List.mem_map_of_mem expression_mem
      rcases addExpressions_total stored first space with ⟨middle, added⟩
      rw [addGroups, Memo.group, found]
      simp only [read, added, bind, Except.bind]
      exact ih (fun other other_mem => exist other (List.mem_cons_of_mem id other_mem))
        (fun other other_mem => loadable other (List.mem_cons_of_mem id other_mem)) middle

/--
A plan space can be built if all groups below its root exist and none of their expressions lies in a
child group of its own.
-/
theorem build_total (consistent : memo.Consistent) {root : GroupId}
    (exist : ∀ id ∈ below memo kind root, id < memo.groups.size)
    (loadable : ∀ id ∈ below memo kind root, ∀ member ∈ kind.members memo id,
      Loadable memo kind member) :
    ∃ space, build memo root kind = .ok (.ok space) := by
  rcases Memo.group?_of_lt (exist root (mem_below.mpr .refl)) with ⟨group, found⟩
  rw [build, found]
  exact addGroups_total consistent exist loadable _

end PlanSpace

end Cascades
