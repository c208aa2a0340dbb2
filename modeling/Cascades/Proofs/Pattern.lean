import Cascades.Pattern
import Cascades.Proofs.Memo.Logical

/-!
# Matching

In a consistent memo without dangling children a pattern is compared with an expression without a
failure. A pattern that only asks for logical operators keeps matching, or keeps not matching, an
expression over explored groups while the memo grows.
-/

namespace Cascades

namespace Pattern

mutual

/-- An expression has the shape of a pattern. -/
def Matches (memo : Memo) : Pattern → Expression → Prop
  | .any, _ => True
  | .leaf, expression => expression.children = []
  | .node matcher children, expression =>
      matcher.accepts expression.operator = true ∧
        expression.children.length = children.length ∧
          MatchesAll memo children expression.children

/-- Every group holds an expression of the shape that is asked of it. -/
def MatchesAll (memo : Memo) : List Pattern → List GroupId → Prop
  | pattern :: patterns, id :: groups =>
      (pattern = .any ∨ ∃ expression, memo.expression? expression.id = some expression ∧
        expression.group = id ∧ pattern.Matches memo expression) ∧
          MatchesAll memo patterns groups
  | _, _ => True

end

mutual

/-- Every operator that a pattern asks for is a logical one of a given kind. -/
def IsLogical : Pattern → Prop
  | .any => True
  | .leaf => False
  | .node matcher children => (∃ kind, matcher = .exactly (.logical kind)) ∧ AllLogical children

/-- All patterns of a list ask for logical operators. -/
def AllLogical : List Pattern → Prop
  | [] => True
  | pattern :: patterns => pattern.IsLogical ∧ AllLogical patterns

end

section Fits

variable {memo : Memo}

theorem anyM_spec {α : Type} {test : α → Checked Bool} {holds : α → Prop} {list : List α}
    (tested : ∀ x ∈ list, ∃ answer, test x = .ok answer ∧ (answer = true ↔ holds x)) :
    ∃ answer, list.anyM test = .ok answer ∧ (answer = true ↔ ∃ x ∈ list, holds x) := by
  induction list with
  | nil => exact ⟨false, rfl, by simp⟩
  | cons x rest ih =>
      rcases tested x List.mem_cons_self with ⟨answer, test_eq, iff⟩
      rcases ih fun y y_mem => tested y (List.mem_cons_of_mem x y_mem) with
        ⟨later, rest_eq, rest_iff⟩
      cases answer with
      | true =>
          refine ⟨true, ?_, ?_⟩
          · rw [List.anyM_cons, test_eq]
            rfl
          · simpa using Or.inl (iff.mp rfl)
      | false =>
          refine ⟨later, ?_, ?_⟩
          · rw [List.anyM_cons, test_eq]
            exact rest_eq
          · have not : ¬ holds x := fun yes => Bool.false_ne_true (iff.mpr yes)
            simpa [not] using rest_iff

theorem mem_expressions (consistent : memo.Consistent) {id : GroupId} {group : Group}
    (found : memo.group? id = some group) {member : ExprId} (member_mem : member ∈ group.expressions) :
    ∃ expression, memo.expression? member = some expression ∧ expression.group = id := by
  rcases List.mem_append.mp member_mem with logical | physical
  · rcases consistent.logical found logical with ⟨expression, stored, group_eq, -⟩
    exact ⟨expression, stored, group_eq⟩
  · rcases consistent.physical found physical with ⟨expression, stored, group_eq, -⟩
    exact ⟨expression, stored, group_eq⟩

theorem mem_expressions_of_stored (consistent : memo.Consistent) {group : Group}
    {expression : Expression} (stored : memo.expression? expression.id = some expression)
    (found : memo.group? expression.group = some group) : expression.id ∈ group.expressions := by
  rcases consistent.housed stored with ⟨held, held_found, member⟩
  rw [found] at held_found
  cases held_found
  rw [Group.expressions, List.mem_append]
  cases logical : expression.operator.isLogical with
  | true => exact .inl (by simpa [logical] using member)
  | false => exact .inr (by simpa [logical] using member)

mutual

/-- A pattern is compared with a stored expression without a failure. -/
theorem fits_spec (consistent : memo.Consistent) (closed : memo.Closed) :
    (pattern : Pattern) → {id : ExprId} → {expression : Expression} →
      memo.expression? id = some expression →
      ∃ answer, pattern.fits memo id = .ok answer ∧
        (answer = true ↔ pattern.Matches memo expression)
  | .any, id, expression, found => by
      refine ⟨true, ?_, by simp [Matches]⟩
      rw [fits, Memo.expression, found]
      rfl
  | .leaf, id, expression, found => by
      refine ⟨expression.children.isEmpty, ?_, by simp [Matches]⟩
      rw [fits, Memo.expression, found]
      rfl
  | .node matcher children, id, expression, found => by
      rcases fitsAll_spec consistent closed children (closed found) with ⟨answer, all_eq, iff⟩
      cases accepted : matcher.accepts expression.operator with
      | false =>
          refine ⟨false, ?_, by simp [Matches, accepted]⟩
          rw [fits, Memo.expression, found]
          simp [accepted, bind, Except.bind, pure, Except.pure]
      | true =>
          by_cases length_eq : expression.children.length = children.length
          · refine ⟨answer, ?_, by simpa [Matches, accepted, length_eq] using iff⟩
            rw [fits, Memo.expression, found]
            simpa [accepted, length_eq, bind, Except.bind] using all_eq
          · refine ⟨false, ?_, by simp [Matches, length_eq]⟩
            rw [fits, Memo.expression, found]
            simp [accepted, length_eq, bind, Except.bind, pure, Except.pure]

theorem fitsAll_spec (consistent : memo.Consistent) (closed : memo.Closed) :
    (patterns : List Pattern) → {groups : List GroupId} →
      (∀ group ∈ groups, group < memo.groups.size) →
      ∃ answer, fitsAll memo patterns groups = .ok answer ∧
        (answer = true ↔ MatchesAll memo patterns groups)
  | [], groups, _ => ⟨true, by rw [fitsAll]; rfl, by simp [MatchesAll]⟩
  | pattern :: patterns, [], _ =>
      ⟨true, by cases pattern <;> (rw [fitsAll]; rfl), by simp [MatchesAll]⟩
  | pattern :: patterns, id :: groups, exist => by
      rcases fitsAll_spec consistent closed patterns
        fun group group_mem => exist group (List.mem_cons_of_mem id group_mem) with
        ⟨answer, rest_eq, rest_iff⟩
      rcases Memo.group?_of_lt (exist id List.mem_cons_self) with ⟨group, found⟩
      have tested : ∀ member ∈ group.expressions, ∃ answer,
          fits memo pattern member = .ok answer ∧ (answer = true ↔
            ∃ expression, memo.expression? member = some expression ∧
              pattern.Matches memo expression) := by
        intro member member_mem
        rcases mem_expressions consistent found member_mem with ⟨expression, stored, -⟩
        rcases fits_spec consistent closed pattern stored with ⟨answer, fits_eq, iff⟩
        exact ⟨answer, fits_eq, by simpa [stored] using iff⟩
      rcases anyM_spec tested with ⟨some_fits, any_eq, any_iff⟩
      have held_iff : some_fits = true ↔ ∃ expression,
          memo.expression? expression.id = some expression ∧ expression.group = id ∧
            pattern.Matches memo expression := by
        rw [any_iff]
        constructor
        · rintro ⟨member, member_mem, expression, stored, holds⟩
          rcases mem_expressions consistent found member_mem with ⟨other, other_stored, group_eq⟩
          rw [stored] at other_stored
          cases other_stored
          exact ⟨expression, (consistent.numbered stored).symm ▸ stored, group_eq, holds⟩
        · rintro ⟨expression, stored, rfl, holds⟩
          exact ⟨expression.id, mem_expressions_of_stored consistent stored found, expression,
            stored, holds⟩
      by_cases isAny : pattern = .any
      · subst isAny
        exact ⟨answer, by rw [fitsAll]; exact rest_eq, by simpa [MatchesAll] using rest_iff⟩
      · refine ⟨some_fits && answer, ?_, ?_⟩
        · rw [fitsAll, Memo.group, found]
          · simp only [bind, Except.bind, any_eq]
            cases some_fits with
            | true => exact rest_eq
            | false => rfl
          · exact isAny
        · rw [Bool.and_eq_true, held_iff, rest_iff, MatchesAll]
          simp [isAny]

end

end Fits

section Frozen

variable {memo larger : Memo}

theorem isLogical_of_matches {matcher : OperatorMatcher} {children : List Pattern}
    (logical : IsLogical (.node matcher children)) {expression : Expression}
    (holds : (Pattern.node matcher children).Matches memo expression) :
    expression.operator.isLogical = true := by
  rw [IsLogical] at logical
  rw [Matches] at holds
  rcases logical with ⟨⟨kind, rfl⟩, -⟩
  have kind_eq := holds.1
  rw [OperatorMatcher.accepts, beq_iff_eq] at kind_eq
  cases operator_eq : expression.operator with
  | logical operator => rfl
  | physical operator =>
      rw [operator_eq] at kind_eq
      cases kind_eq

mutual

/-- A logical pattern sees only explored groups below an expression over explored groups. -/
theorem matches_frozen (extension : memo.Extends larger) (consistent : memo.Consistent)
    (larger_consistent : larger.Consistent) (below : memo.ExploredBelow) : (pattern : Pattern) →
    pattern.IsLogical → {expression later : Expression} → later.unmarked = expression.unmarked →
    (∀ child ∈ expression.children, memo.Reached child .explore) →
    (pattern.Matches larger later ↔ pattern.Matches memo expression)
  | .any, _, _, _, _, _ => by simp [Matches]
  | .node matcher children, logical, expression, later, same, explored => by
      rcases Expression.unmarked_eq_iff.mp same with ⟨-, -, operator_eq, children_eq, -⟩
      rw [IsLogical] at logical
      rw [Matches, Matches, operator_eq, children_eq,
        matchesAll_frozen extension consistent larger_consistent below children logical.2 explored]

theorem matchesAll_frozen (extension : memo.Extends larger) (consistent : memo.Consistent)
    (larger_consistent : larger.Consistent) (below : memo.ExploredBelow) :
    (patterns : List Pattern) → AllLogical patterns → {groups : List GroupId} →
    (∀ group ∈ groups, memo.Reached group .explore) →
    (MatchesAll larger patterns groups ↔ MatchesAll memo patterns groups)
  | [], _, _, _ => by simp [MatchesAll]
  | pattern :: patterns, _, [], _ => by simp [MatchesAll]
  | pattern :: patterns, logical, id :: groups, explored => by
      rw [AllLogical] at logical
      have rest := matchesAll_frozen extension consistent larger_consistent below patterns logical.2
        fun group group_mem => explored group (List.mem_cons_of_mem id group_mem)
      rw [MatchesAll, MatchesAll, rest]
      refine and_congr_left fun _ => ?_
      have here := explored id List.mem_cons_self
      have frozen := extension.frozen consistent here
      cases pattern with
      | any => simp
      | leaf => exact (logical.1 : False).elim
      | node matcher children =>
          have later_iff {expression later : Expression}
              (expression_mem : expression ∈ memo.logicalIn id)
              (same : later.unmarked = expression.unmarked) :=
            matches_frozen extension consistent larger_consistent below (.node matcher children)
              logical.1 same (below here expression_mem)
          refine or_congr_right ⟨?_, ?_⟩
          · rintro ⟨later, stored, group_eq, holds⟩
            have later_mem := (Memo.mem_logicalIn larger_consistent).mpr
              ⟨stored, group_eq, isLogical_of_matches logical.1 holds⟩
            rcases frozen.mem_of_larger later_mem with ⟨expression, expression_mem, same⟩
            have facts := (Memo.mem_logicalIn consistent).mp expression_mem
            exact ⟨expression, facts.1, facts.2.1, (later_iff expression_mem same).mp holds⟩
          · rintro ⟨expression, stored, group_eq, holds⟩
            have expression_mem := (Memo.mem_logicalIn consistent).mpr
              ⟨stored, group_eq, isLogical_of_matches logical.1 holds⟩
            rcases frozen.mem_larger expression_mem with ⟨later, later_mem, same⟩
            have facts := (Memo.mem_logicalIn larger_consistent).mp later_mem
            exact ⟨later, facts.1, facts.2.1, (later_iff expression_mem same).mpr holds⟩

end

end Frozen

end Pattern

end Cascades
