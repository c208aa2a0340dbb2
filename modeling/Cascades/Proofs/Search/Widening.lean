import Cascades.Proofs.Rulebook
import Cascades.Proofs.Search.Operations

/-!
# Rules widen a memo

Whatever a rule gives, storing its results only adds to a memo and drives no group to a goal. Groups
that have been driven to a goal keep their logical expressions, as long as logical results go to
other groups. So flags that have been true once stay true, if implementations give physical results
only and nothing that is done becomes undone.
-/

namespace Cascades

namespace Memo

/--
A memo that holds all that another one does, with the same groups driven to each goal, where those
that have been driven to one of the goals have their logical expressions as before.
-/
structure Widens (top : Goal) (memo larger : Memo) : Prop where
  grows : memo.Grows larger
  flags : ∀ {id goal}, larger.Reached id goal ↔ memo.Reached id goal
  frozen : ∀ {id}, memo.Reached id top → larger.logicalIds id = memo.logicalIds id

variable {top : Goal} {memo larger : Memo}

theorem Widens.refl (memo : Memo) : memo.Widens top memo :=
  ⟨.refl memo, Iff.rfl, fun _ => rfl⟩

theorem Widens.trans {largest : Memo} (early : memo.Widens top larger)
    (late : larger.Widens top largest) : memo.Widens top largest :=
  ⟨early.grows.trans late.grows, late.flags.trans early.flags, fun reached =>
    (late.frozen (early.flags.mpr reached)).trans (early.frozen reached)⟩

theorem Widens.extends_ (widens : memo.Widens .explore larger) : memo.Extends larger where
  expressions := widens.grows.expressions
  groups := by
    intro id group found
    rcases widens.grows.groups found with ⟨wider, wider_found, logical, physical, reached⟩
    refine ⟨wider, wider_found, logical, physical, ?_, reached .implement⟩
    intro explored
    have same := widens.frozen ⟨group, found, explored⟩
    rw [logicalIds, logicalIds, found, wider_found] at same
    exact ⟨reached .explore explored, same⟩

theorem widens_push {group : GroupId} {operator : Operator} {children : List GroupId}
    {origin : Option RuleId} (open_ : operator.isLogical = true → ¬ memo.Reached group top) :
    memo.Widens top (memo.push group operator children origin) where
  grows := grows_push
  flags := reached_push
  frozen := by
    rintro id ⟨held, found, reached⟩
    rw [logicalIds, logicalIds, group?_push, found]
    by_cases here : group = id
    · subst here
      rw [if_pos rfl]
      cases logical : operator.isLogical with
      | false => rfl
      | true => exact (open_ logical ⟨held, found, reached⟩).elim
    · rw [if_neg here]

theorem widens_opened : memo.Widens top memo.opened where
  grows := extends_opened.grows
  flags := reached_opened
  frozen := by
    rintro id ⟨group, found, -⟩
    rw [logicalIds, logicalIds, found, group?_opened_of_some found]

theorem widens_add (operator : Operator) (children : List GroupId) (origin : Option RuleId) :
    memo.Widens top (memo.add operator children origin).1 := by
  rw [add]
  split
  · exact .refl memo
  · exact widens_opened.trans (widens_push fun _ => not_reached_size)

theorem widens_addTo {group : GroupId} {operator : Operator} {children : List GroupId}
    {origin : Option RuleId} {insertion : Insertion}
    (open_ : operator.isLogical = true → ¬ memo.Reached group top)
    (added : memo.addTo group operator children origin = .ok (larger, insertion)) :
    memo.Widens top larger := by
  rcases addTo_cases added with ⟨rfl, -⟩ | ⟨rfl, -⟩
  · exact .refl larger
  · exact widens_push (by simpa using open_)

theorem isApplied_iff {id : ExprId} {rule : RuleId} : memo.isApplied id rule = .ok true ↔
    ∃ expression, memo.expression? id = some expression ∧
      expression.applied.contains rule = true := by
  rw [isApplied, Memo.expression]
  cases memo.expression? id with
  | none => simp [bind, Except.bind]
  | some expression => simp [bind, Except.bind, pure, Except.pure]

theorem Grows.isApplied (grows : memo.Grows larger) {id : ExprId} {rule : RuleId}
    (applied : memo.isApplied id rule = .ok true) : larger.isApplied id rule = .ok true := by
  rw [isApplied_iff] at applied ⊢
  rcases applied with ⟨expression, stored, marked⟩
  rcases grows.expressions stored with ⟨marks, larger_stored, kept⟩
  exact ⟨_, larger_stored, kept rule marked⟩

theorem widens_markApplied (consistent : memo.Consistent) {id : ExprId} {rule : RuleId}
    {isNew : Bool} (marked : memo.markApplied id rule = .ok (larger, isNew)) :
    memo.Widens top larger ∧ larger.isApplied id rule = .ok true := by
  rcases marked_of_markApplied consistent marked with ⟨expression, stored, rfl⟩
  have self : (expression.applied.insert rule).contains rule = true := by
    rw [RuleSet.contains_insert]
    simp
  refine ⟨⟨(extends_marked consistent stored).grows, Iff.rfl, fun _ => rfl⟩, isApplied_iff.mpr
    ⟨{ expression with applied := expression.applied.insert rule }, ?_, self⟩⟩
  rw [expression?_marked consistent stored, if_pos rfl]

end Memo

/-- All results of a rule have a physical operator at the top. -/
def Rule.IsPhysical (rule : Rule) : Prop :=
  ∀ {expression memo catalog application results},
    rule.apply expression memo catalog = .ok application → application.outcome = .ok results →
      ∀ result ∈ results, result.operator.isLogical = false

/-- Applying a rule widens a memo, and its mark stays. -/
theorem RuleJob.widens_of_step {top : Goal} {context : Context} {job : RuleJob} {progress after : Progress}
    {expression : Expression} {outcome : Except Failure Step} (consistent : progress.memo.Consistent)
    (stored : progress.memo.expression? job.expression = some expression)
    (physical : progress.memo.Reached expression.group top → ∀ {rule},
      context.rules.lookup job.rule = .ok rule → rule.IsPhysical)
    (step_eq : job.step context progress = .ok (after, outcome)) :
    progress.memo.Widens top after.memo ∧
      after.memo.isApplied job.expression job.rule = .ok true := by
  rcases marks_of_step step_eq with ⟨-, marked, isNew, marked_eq, inserted⟩
  rcases @Memo.widens_markApplied top _ _ consistent _ _ _ marked_eq with ⟨widens, applied⟩
  rcases inserted with same | ⟨rule, held, application, results, added, outcome, lookup_eq, held_eq,
    apply_eq, results_eq, inserted⟩
  · exact same ▸ ⟨widens, applied⟩
  · rcases widens.grows.expressions stored with ⟨marks, marked_stored, -⟩
    rw [held_eq] at marked_stored
    cases marked_stored
    have larger : marked.Widens top after.memo := by
      refine @insertAll_kept marked job.rule (marked.Widens top) expression.group results 0 added
        after.memo outcome ?_ ?_ (.refl marked) inserted
      · exact fun _ _ _ operator _ children kept =>
          kept.trans (Memo.widens_add operator children (some job.rule))
      · intro memo middle next result groups insertion result_mem kept _ added_eq
        refine kept.trans (Memo.widens_addTo ?_ added_eq)
        intro logical reached
        have reached_before := widens.flags.mp (kept.flags.mp reached)
        have isPhysical := physical reached_before lookup_eq apply_eq results_eq result result_mem
        rw [logical] at isPhysical
        cases isPhysical
    exact ⟨widens.trans larger, larger.grows.isApplied applied⟩

/-! ## True flags -/

/--
A memo in which the flags are true: an implemented group is explored, and in a group that has been
driven to a goal so have been all expressions.
-/
structure Truthful (context : Context) (Done : Memo → RuleId → ExprId → Prop) (memo : Memo) :
    Prop where
  built : memo.Built
  implemented : ∀ {id}, memo.Reached id .implement → memo.Reached id .explore
  served : ∀ {id goal}, memo.Reached id goal →
    ∀ member ∈ memo.logicalIds id, Served context Done memo (.expression member goal)

/-- What is done stays done while the memo grows, and a rule is done where it is marked. -/
structure Lasting (Done : Memo → RuleId → ExprId → Prop) : Prop where
  persists : ∀ {memo larger rule id}, memo.Grows larger → Done memo rule id → Done larger rule id
  marked : ∀ {memo rule id}, memo.isApplied id rule = .ok true → Done memo rule id

section Truthful

variable {context : Context} {Done : Memo → RuleId → ExprId → Prop} {memo larger : Memo}

theorem Memo.Extends.logicalIds_eq (extension : memo.Extends larger) {id : GroupId}
    (explored : memo.Reached id .explore) : larger.logicalIds id = memo.logicalIds id := by
  rcases explored with ⟨group, found, explored⟩
  rcases extension.groups found with ⟨wider, wider_found, -, -, kept, -⟩
  rw [Memo.logicalIds, Memo.logicalIds, found, wider_found]
  exact (kept explored).2

theorem Memo.logicalIds_flagged {id other : GroupId} {group : Group} {goal : Goal}
    (found : memo.group? id = some group) :
    (memo.flagged id group goal).logicalIds other = memo.logicalIds other := by
  rw [Memo.logicalIds, Memo.logicalIds, Memo.group?_flagged found]
  by_cases here : id = other
  · rw [if_pos here, ← here, found]
    cases goal <;> rfl
  · rw [if_neg here]

theorem Truthful.explored (truthful : Truthful context Done memo) {id : GroupId} {goal : Goal}
    (reached : memo.Reached id goal) : memo.Reached id .explore := by
  cases goal with
  | explore => exact reached
  | implement => exact truthful.implemented reached

/-- Flags stay true while the memo is widened. -/
theorem Truthful.widened (truthful : Truthful context Done memo) (lasting : Lasting Done)
    (built : larger.Built) (widens : memo.Widens .explore larger) : Truthful context Done larger where
  built := built
  implemented := fun implemented =>
    widens.flags.mpr (truthful.implemented (widens.flags.mp implemented))
  served := by
    intro id goal reached member member_mem
    have before := widens.flags.mp reached
    rw [widens.frozen (truthful.explored before)] at member_mem
    exact (truthful.served before member member_mem).map widens.grows
      (lasting.persists widens.grows)

/-- A new flag is true if all expressions of its group have been driven to the goal. -/
theorem Truthful.flagged (truthful : Truthful context Done memo) (lasting : Lasting Done)
    {id : GroupId} {group : Group} {goal : Goal} (found : memo.group? id = some group)
    (explored : goal = .implement → memo.Reached id .explore)
    (served : ∀ member ∈ group.logical, Served context Done memo (.expression member goal)) :
    Truthful context Done (memo.flagged id group goal) := by
  have grows : memo.Grows (memo.flagged id group goal) := (Memo.extends_flagged found).grows
  refine ⟨truthful.built.flagged goal found, ?_, ?_⟩
  · intro other implemented
    rcases (Memo.reached_flagged found).mp implemented with before | ⟨rfl, same⟩
    · exact grows.reached (truthful.implemented before)
    · exact grows.reached (explored same.symm)
  · intro other wanted reached member member_mem
    rw [Memo.logicalIds_flagged found] at member_mem
    rcases (Memo.reached_flagged found).mp reached with before | ⟨rfl, rfl⟩
    · exact (truthful.served before member member_mem).map grows (lasting.persists grows)
    · rw [Memo.logicalIds, found] at member_mem
      exact (served member member_mem).map grows (lasting.persists grows)

/--
Jobs keep flags true, and explored groups as they are, if all implementations give physical results.
-/
theorem stable_truthful {top : Goal} (start : Memo) (lasting : Lasting Done)
    (physical : ∀ {id rule}, id ∈ context.phase .implement → context.rules.lookup id = .ok rule →
      rule.IsPhysical) :
    Stable context top (fun memo => Truthful context Done memo ∧ start.Extends memo) Done where
  consistent := fun kept => kept.1.built.consistent
  applied := by
    rintro goal rule id expression outcome progress after ⟨truthful, since⟩ - rule_mem ripe unreached
      - step_eq
    have isPhysical (explored : progress.memo.Reached expression.group .explore) {held : Rule}
        (lookup_eq : context.rules.lookup rule = .ok held) : held.IsPhysical := by
      cases goal with
      | explore => exact (unreached explored).elim
      | implement => exact physical rule_mem lookup_eq
    rcases RuleJob.widens_of_step truthful.built.consistent ripe.stored isPhysical step_eq with
      ⟨widens, applied⟩
    have built := RuleJob.step_built truthful.built step_eq
    refine ⟨⟨truthful.widened lasting built widens, since.trans widens.extends_⟩, widens.grows,
      lasting.persists widens.grows, widens.flags.mp, ?_⟩
    exact fun step same => ⟨(RuleJob.marks_of_step step_eq).1 step same, lasting.marked applied⟩
  marked := by
    rintro memo id goal group ⟨truthful, since⟩ found - explored served
    have extension : memo.Extends (memo.flagged id group goal) := Memo.extends_flagged found
    exact ⟨⟨truthful.flagged lasting found explored served, since.trans extension⟩,
      lasting.persists extension.grows⟩

end Truthful

end Cascades
