import Cascades.Proofs.Memo.Insertions
import Cascades.Proofs.Pattern

/-!
# What a match selects

A pattern matches an expression exactly when a tree of stored expressions fits it node by node,
where the tree picks one expression of each group that the pattern looks into. Expressions are
never taken away, so such a tree outlives whatever is inserted later.

The comparison breaks off where an expression names a group that the memo does not hold. It never
answers wrongly: later insertions may make it break off, but not deny a match.
-/

namespace Cascades

/-- What a matcher asks of an operator, told by the operator. -/
inductive OperatorMatcher.Admits : OperatorMatcher → Operator → Prop
  | exactly (operator : Operator) : Admits (.exactly operator.kind) operator
  | anyLogical (operator : LogicalOperator) : Admits .anyLogical (.logical operator)
  | anyPhysical (operator : PhysicalOperator) : Admits .anyPhysical (.physical operator)

theorem OperatorMatcher.accepts_iff {matcher : OperatorMatcher} {operator : Operator} :
    matcher.accepts operator = true ↔ matcher.Admits operator := by
  constructor
  · intro accepted
    cases matcher with
    | exactly kind =>
        rw [accepts, beq_iff_eq] at accepted
        exact accepted ▸ .exactly operator
    | anyLogical =>
        cases operator with
        | logical operator => exact .anyLogical operator
        | physical operator => cases accepted
    | anyPhysical =>
        cases operator with
        | logical operator => cases accepted
        | physical operator => exact .anyPhysical operator
  · rintro (_ | _ | _)
    · rw [accepts, beq_iff_eq]
    · rfl
    · rfl

/-- A tree of stored expressions, as far down as a pattern looks. -/
inductive Selection where
  /-- A group that is not looked into. -/
  | unread
  | picked (id : ExprId) (inputs : List Selection)

namespace Pattern

mutual

/-- A tree of stored expressions fits a pattern node by node. -/
inductive Selects (memo : Memo) : Pattern → Selection → Prop
  | any {id : ExprId} {expression : Expression} :
      memo.expression? id = some expression → Selects memo .any (.picked id [])
  | leaf {id : ExprId} {expression : Expression} :
      memo.expression? id = some expression → expression.children = [] →
      Selects memo .leaf (.picked id [])
  | node {id : ExprId} {expression : Expression} {matcher : OperatorMatcher}
      {patterns : List Pattern} {inputs : List Selection} :
      memo.expression? id = some expression → matcher.Admits expression.operator →
      SelectsAll memo patterns expression.children inputs →
      Selects memo (.node matcher patterns) (.picked id inputs)

/-- As many patterns as groups, and a tree for each pattern that asks for one. -/
inductive SelectsAll (memo : Memo) : List Pattern → List GroupId → List Selection → Prop
  | nil : SelectsAll memo [] [] []
  | unread {patterns : List Pattern} {id : GroupId} {groups : List GroupId}
      {inputs : List Selection} : SelectsAll memo patterns groups inputs →
      SelectsAll memo (.any :: patterns) (id :: groups) (.unread :: inputs)
  | picked {pattern : Pattern} {patterns : List Pattern} {id : GroupId} {group : Group}
      {groups : List GroupId} {member : ExprId} {below inputs : List Selection} :
      pattern ≠ .any → memo.group? id = some group → member ∈ group.expressions →
      Selects memo pattern (.picked member below) → SelectsAll memo patterns groups inputs →
      SelectsAll memo (pattern :: patterns) (id :: groups) (.picked member below :: inputs)

end

section Selected

variable {memo : Memo}

mutual

/-- An expression has the shape of a pattern exactly when it is the root of a tree that fits. -/
theorem matches_iff_selects (consistent : memo.Consistent) : (pattern : Pattern) → {id : ExprId} →
    {expression : Expression} → memo.expression? id = some expression →
    (pattern.Matches memo expression ↔ ∃ inputs, Selects memo pattern (.picked id inputs))
  | .any, id, expression, stored => by
      rw [Matches]
      exact iff_of_true trivial ⟨[], .any stored⟩
  | .leaf, id, expression, stored => by
      rw [Matches]
      constructor
      · exact fun childless => ⟨[], .leaf stored childless⟩
      · rintro ⟨inputs, selects⟩
        cases selects with
        | leaf found childless =>
            rw [stored] at found
            cases found
            exact childless
  | .node matcher patterns, id, expression, stored => by
      rw [Matches]
      constructor
      · rintro ⟨accepted, length_eq, holds⟩
        rcases (matchesAll_iff_selectsAll consistent patterns expression.children).mp
          ⟨length_eq, holds⟩ with ⟨inputs, selects⟩
        exact ⟨inputs, .node stored (OperatorMatcher.accepts_iff.mp accepted) selects⟩
      · rintro ⟨inputs, selects⟩
        cases selects with
        | node found admitted selects =>
            rw [stored] at found
            cases found
            exact ⟨OperatorMatcher.accepts_iff.mpr admitted,
              (matchesAll_iff_selectsAll consistent patterns expression.children).mpr
                ⟨inputs, selects⟩⟩

theorem matchesAll_iff_selectsAll (consistent : memo.Consistent) : (patterns : List Pattern) →
    (groups : List GroupId) → (groups.length = patterns.length ∧ MatchesAll memo patterns groups ↔
      ∃ inputs, SelectsAll memo patterns groups inputs)
  | [], [] => by
      rw [MatchesAll]
      exact iff_of_true ⟨rfl, trivial⟩ ⟨[], .nil⟩
      all_goals simp
  | [], id :: groups => by
      refine iff_of_false (by simp) ?_
      rintro ⟨inputs, selects⟩
      cases selects
  | pattern :: patterns, [] => by
      refine iff_of_false (by simp) ?_
      rintro ⟨inputs, selects⟩
      cases selects
  | pattern :: patterns, id :: groups => by
      have rest := matchesAll_iff_selectsAll consistent patterns groups
      rw [MatchesAll, List.length_cons, List.length_cons, Nat.succ_inj]
      constructor
      · rintro ⟨length_eq, here, holds⟩
        rcases rest.mp ⟨length_eq, holds⟩ with ⟨inputs, selects⟩
        by_cases isAny : pattern = .any
        · subst isAny
          exact ⟨_, .unread selects⟩
        · rcases here.resolve_left isAny with ⟨expression, stored, group_eq, holds⟩
          rcases consistent.housed stored with ⟨group, found, -⟩
          have member := mem_expressions_of_stored consistent stored found
          rcases (matches_iff_selects consistent pattern stored).mp holds with ⟨below, fitting⟩
          exact ⟨_, .picked isAny (group_eq ▸ found) member fitting selects⟩
      · rintro ⟨inputs, selects⟩
        cases selects with
        | unread selects =>
            rcases rest.mpr ⟨_, selects⟩ with ⟨length_eq, holds⟩
            exact ⟨length_eq, .inl rfl, holds⟩
        | picked isAny found member fitting selects =>
            rcases rest.mpr ⟨_, selects⟩ with ⟨length_eq, holds⟩
            rcases mem_expressions consistent found member with ⟨expression, stored, group_eq⟩
            have numbered := consistent.numbered stored
            exact ⟨length_eq, .inr ⟨expression, numbered.symm ▸ stored, group_eq,
              (matches_iff_selects consistent pattern stored).mpr ⟨_, fitting⟩⟩, holds⟩

end

end Selected

section Growing

variable {memo larger : Memo}

mutual

/-- A shape is kept by a memo that keeps the stored expressions. -/
theorem Matches.mono (kept : ∀ {id expression}, memo.expression? id = some expression →
    larger.expression? id = some expression) : (pattern : Pattern) → {expression : Expression} →
    pattern.Matches memo expression → pattern.Matches larger expression
  | .any, _, _ => by rw [Matches]; trivial
  | .leaf, _, holds => by
      rw [Matches] at holds ⊢
      exact holds
  | .node _ patterns, _, holds => by
      rw [Matches] at holds ⊢
      exact ⟨holds.1, holds.2.1, MatchesAll.mono kept patterns holds.2.2⟩

theorem MatchesAll.mono (kept : ∀ {id expression}, memo.expression? id = some expression →
    larger.expression? id = some expression) : (patterns : List Pattern) →
    {groups : List GroupId} → MatchesAll memo patterns groups → MatchesAll larger patterns groups
  | [], _, _ => by simp [MatchesAll]
  | _ :: _, [], _ => by simp [MatchesAll]
  | pattern :: patterns, _ :: _, holds => by
      rw [MatchesAll] at holds ⊢
      refine ⟨holds.1.imp_right ?_, MatchesAll.mono kept patterns holds.2⟩
      rintro ⟨expression, stored, group_eq, here⟩
      exact ⟨expression, kept stored, group_eq, Matches.mono kept pattern here⟩

end

theorem anyM_eq_false {α : Type} {test : α → Checked Bool} {list : List α}
    (denied : list.anyM test = .ok false) : ∀ x ∈ list, test x = .ok false := by
  induction list with
  | nil => simp
  | cons x rest ih =>
      rw [List.anyM_cons] at denied
      cases tested : test x with
      | error failure =>
          rw [tested] at denied
          cases denied
      | ok answer =>
          rw [tested] at denied
          cases answer with
          | true => cases denied
          | false => exact List.forall_mem_cons.mpr ⟨tested, ih denied⟩

mutual

/-- A comparison that answers no is right, whether or not all groups that are named exist. -/
theorem not_matches_of_fits (consistent : memo.Consistent) : (pattern : Pattern) →
    {id : ExprId} → {expression : Expression} → memo.expression? id = some expression →
    pattern.fits memo id = .ok false → ¬ pattern.Matches memo expression
  | .any, _, _, stored, denied => by
      rw [fits, Memo.expression, stored] at denied
      cases denied
  | .leaf, _, _, stored, denied => by
      rw [fits, Memo.expression, stored] at denied
      simpa [Matches, bind, Except.bind, pure, Except.pure] using denied
  | .node matcher patterns, _, expression, stored, denied => by
      rw [Matches]
      rintro ⟨accepted, length_eq, holds⟩
      rw [fits, Memo.expression, stored] at denied
      refine not_matchesAll_of_fitsAll consistent patterns ?_ holds
      simpa [accepted, length_eq, bind, Except.bind] using denied

theorem not_matchesAll_of_fitsAll (consistent : memo.Consistent) : (patterns : List Pattern) →
    {groups : List GroupId} → fitsAll memo patterns groups = .ok false →
    ¬ MatchesAll memo patterns groups
  | [], _, denied => by
      rw [fitsAll] at denied
      cases denied
  | pattern :: _, [], denied => by
      cases pattern <;> (rw [fitsAll] at denied; cases denied)
  | pattern :: patterns, id :: groups, denied => by
      rw [MatchesAll]
      rintro ⟨here, rest⟩
      by_cases isAny : pattern = .any
      · subst isAny
        rw [fitsAll] at denied
        exact not_matchesAll_of_fitsAll consistent patterns denied rest
      · rcases here.resolve_left isAny with ⟨expression, stored, rfl, holds⟩
        rcases consistent.housed stored with ⟨group, found, -⟩
        have member := mem_expressions_of_stored consistent stored found
        rw [fitsAll, Memo.group, found] at denied
        · simp only [bind, Except.bind] at denied
          cases any_eq : group.expressions.anyM (fits memo pattern) with
          | error failure =>
              rw [any_eq] at denied
              cases denied
          | ok answer =>
              rw [any_eq] at denied
              cases answer with
              | true => exact not_matchesAll_of_fitsAll consistent patterns denied rest
              | false =>
                  exact not_matches_of_fits consistent pattern stored
                    (anyM_eq_false any_eq _ member) holds
        · exact isAny

end

end Growing

/-- A comparison finds a fitting tree exactly when there is one. After whatever insertions the tree
is still found, where the groups that are named exist, and never denied. -/
theorem fits_iff_selects {memo : Memo} (built : memo.Built) (closed : memo.Closed) {id : ExprId}
    {expression : Expression} (stored : memo.expression? id = some expression)
    (pattern : Pattern) :
    (∃ answer, pattern.fits memo id = .ok answer ∧
      (answer = true ↔ ∃ inputs, Selects memo pattern (.picked id inputs))) ∧
    (pattern.fits memo id = .ok true → ∀ {larger}, memo.Inserted larger →
      (larger.Closed → pattern.fits larger id = .ok true) ∧
        pattern.fits larger id ≠ .ok false) := by
  have consistent := built.consistent
  rcases fits_spec consistent closed pattern stored with ⟨answer, fits_eq, matches_iff⟩
  refine ⟨⟨answer, fits_eq, matches_iff.trans (matches_iff_selects consistent pattern stored)⟩, ?_⟩
  intro matched larger inserted
  rw [matched] at fits_eq
  cases fits_eq
  have kept {id : ExprId} {expression : Expression}
      (stored : memo.expression? id = some expression) :
      larger.expression? id = some expression := inserted.stored stored
  have larger_consistent := (inserted.built built).consistent
  have holds := Matches.mono kept pattern (matches_iff.mp rfl)
  refine ⟨?_, fun denied => not_matches_of_fits larger_consistent pattern (kept stored) denied holds⟩
  intro larger_closed
  rcases fits_spec larger_consistent larger_closed pattern (kept stored) with
    ⟨answer, fits_eq, matches_iff⟩
  rw [fits_eq, matches_iff.mpr holds]

/-- A join of a scan with whatever has no inputs. -/
def joinOfScan : Pattern := .node (.exactly (.logical .join)) [scan, leaf]

/-- The join of two tables is such a join, however the memo grows, and none over two joins. -/
theorem fits_iff_selects_joined :
    (∃ inputs, Selects .joined joinOfScan (.picked 2 inputs)) ∧
    (∀ {larger}, Memo.joined.Inserted larger → larger.Closed →
      joinOfScan.fits larger 2 = .ok true) ∧
    ¬ ∃ inputs, Selects .joined (.node .anyLogical [join, join]) (.picked 2 inputs) := by
  have built : Memo.joined.Built := .add _ _ _ (.add _ _ _ (.add _ _ _ .empty))
  have closed : Memo.joined.Closed := by
    intro id expression stored
    exact (by decide +kernel : ∀ expression ∈ Memo.joined.expressions,
      ∀ child ∈ expression.children, child < Memo.joined.groups.size) _
        (Array.mem_of_getElem? stored)
  have stored : (Memo.joined.expression? 2).isSome = true := by decide +kernel
  rcases Option.isSome_iff_exists.mp stored with ⟨expression, stored⟩
  have matched : joinOfScan.fits .joined 2 = .ok true := by rfl
  have denied : (node .anyLogical [join, join]).fits .joined 2 = .ok false := by rfl
  rcases fits_iff_selects built closed stored joinOfScan with ⟨⟨answer, fits_eq, iff⟩, kept⟩
  rcases fits_iff_selects built closed stored (.node .anyLogical [join, join]) with
    ⟨⟨other, other_eq, other_iff⟩, -⟩
  cases matched.symm.trans fits_eq
  cases denied.symm.trans other_eq
  exact ⟨iff.mp rfl, fun inserted => (kept matched inserted).1,
    fun selected => Bool.false_ne_true (other_iff.mpr selected)⟩

end Pattern

end Cascades
