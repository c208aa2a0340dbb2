import Cascades.Proofs.Memo.Insert
import Cascades.Search.Step
import Mathlib.Tactic.ByContra

/-!
# What jobs achieve

What a run guarantees depends on the rules only through a discipline: an invariant of the memo, and
what it means that a rule is done with an expression. A rule that is passed over must be done
already, applying it must make it done, and no change of the memo may undo what is done. Steps of
jobs then achieve what was requested of them, provided that what they asked for has been achieved.
-/

namespace Cascades

/-- A run for a goal has work for the other one only if it has to explore before it implements. -/
def Goal.Within (goal top : Goal) : Prop :=
  goal = .implement → top = .implement

/-- The rules that serve a goal. -/
def Context.phase (context : Context) (goal : Goal) : List RuleId :=
  ((context.rules.rulesFor goal).intersection context.mask).toList

namespace Memo

/-- An expression whose rules may be scheduled for a goal. -/
structure Ripe (memo : Memo) (id : ExprId) (goal : Goal) (expression : Expression) : Prop where
  stored : memo.expression? id = some expression
  children : ∀ child ∈ expression.children, memo.Reached child goal
  explored : goal = .implement → memo.Reached expression.group .explore

theorem Ripe.mono {memo larger : Memo} {id : ExprId} {goal : Goal} {expression : Expression}
    (ripe : memo.Ripe id goal expression) (grows : memo.Grows larger) :
    ∃ applied, larger.Ripe id goal { expression with applied } := by
  rcases grows.expressions ripe.stored with ⟨applied, stored, -⟩
  exact ⟨applied, stored, fun child child_mem => grows.reached (ripe.children child child_mem),
    fun implement => grows.reached (ripe.explored implement)⟩

/-- The numbers of the logical expressions of a group, none if it does not exist. -/
def logicalIds (memo : Memo) (id : GroupId) : List ExprId :=
  match memo.group? id with
  | some group => group.logical
  | none => []

theorem Grows.logicalIds {memo larger : Memo} (grows : memo.Grows larger) (id : GroupId) :
    memo.logicalIds id <+: larger.logicalIds id := by
  rw [Memo.logicalIds]
  cases found : memo.group? id with
  | none => exact List.nil_prefix
  | some group =>
      rcases grows.groups found with ⟨wider, wider_found, logical, -⟩
      rw [Memo.logicalIds, wider_found]
      exact logical

end Memo

/-- The pattern of a rule has matched an expression, in a memo that the present one has grown from. -/
def Context.Matched (context : Context) (memo : Memo) (rule : RuleId) (id : ExprId) : Prop :=
  ∃ held earlier, context.rules.lookup rule = .ok held ∧ Memo.Grows earlier memo ∧
    held.pattern.fits earlier id = .ok true

theorem Context.Matched.mono {context : Context} {memo larger : Memo} {rule : RuleId} {id : ExprId}
    (matched : context.Matched memo rule id) (grows : memo.Grows larger) :
    context.Matched larger rule id := by
  rcases matched with ⟨held, earlier, lookup_eq, before, fits⟩
  exact ⟨held, earlier, lookup_eq, before.trans grows, fits⟩

/--
An invariant of the memo and a notion of being done that all changes of the memo respect in runs for
a goal.
-/
structure Stable (context : Context) (top : Goal) (Kept : Memo → Prop)
    (Done : Memo → RuleId → ExprId → Prop) : Prop where
  consistent : ∀ {memo}, Kept memo → memo.Consistent
  applied : ∀ {goal rule id expression outcome} {progress after : Progress}, Kept progress.memo →
    goal.Within top → rule ∈ context.phase goal → progress.memo.Ripe id goal expression →
      ¬ progress.memo.Reached expression.group goal → context.Matched progress.memo rule id →
        RuleJob.step ⟨rule, id⟩ context progress = .ok (after, outcome) →
          Kept after.memo ∧ progress.memo.Grows after.memo ∧
            (∀ {other target}, Done progress.memo other target → Done after.memo other target) ∧
              (∀ {group goal}, after.memo.Reached group goal →
                progress.memo.Reached group goal) ∧
                ∀ step, outcome = .ok step → step = .done ∧ Done after.memo rule id
  marked : ∀ {memo id goal group}, Kept memo → memo.group? id = some group →
    ¬ memo.Reached id goal → (goal = .implement → memo.Reached id .explore) →
      (∀ member ∈ group.logical, ∃ expression, memo.Ripe member goal expression ∧
        ∀ rule ∈ context.phase goal, Done memo rule member) →
          Kept (memo.flagged id group goal) ∧
            ∀ {rule member}, Done memo rule member → Done (memo.flagged id group goal) rule member

/-- The rules that a job passes over are done with its expression. -/
def PassesOver (context : Context) (Done : Memo → RuleId → ExprId → Prop) (memo : Memo)
    (job : ExpressionJob) : Prop :=
  ∀ rule expression, rule ∈ context.phase job.goal →
    memo.Ripe job.expression job.goal expression →
      job.candidate context memo expression rule = .ok (.ok none) → Done memo rule job.expression

/-- An invariant of the memo and a notion of being done that the rules of a context respect. -/
structure Discipline (context : Context) (top : Goal) (Kept : Memo → Prop)
    (Done : Memo → RuleId → ExprId → Prop) : Prop extends Stable context top Kept Done where
  passed_over : ∀ {memo} {job : ExpressionJob}, Kept memo → PassesOver context Done memo job

/-- What the rules keep as well may be added to the invariant. -/
theorem Discipline.and {context : Context} {top : Goal} {Kept Also : Memo → Prop}
    {Done : Memo → RuleId → ExprId → Prop} (discipline : Discipline context top Kept Done)
    (applied : ∀ {goal rule id expression outcome} {progress after : Progress},
      Kept progress.memo → Also progress.memo → rule ∈ context.phase goal →
        progress.memo.Ripe id goal expression → ¬ progress.memo.Reached expression.group goal →
          RuleJob.step ⟨rule, id⟩ context progress = .ok (after, outcome) → Kept after.memo →
            progress.memo.Grows after.memo → Also after.memo)
    (flagged : ∀ {memo id goal group}, Kept memo → Also memo → memo.group? id = some group →
      Also (memo.flagged id group goal)) :
    Discipline context top (fun memo => Kept memo ∧ Also memo) Done where
  consistent := fun kept => discipline.consistent kept.1
  applied := by
    rintro goal rule id expression outcome progress after ⟨kept, also⟩ within rule_mem ripe unreached
      matched step_eq
    rcases discipline.applied kept within rule_mem ripe unreached matched step_eq with
      ⟨after_kept, grows, rest⟩
    exact ⟨⟨after_kept, applied kept also rule_mem ripe unreached step_eq after_kept grows⟩, grows,
      rest⟩
  marked := by
    rintro memo id goal group ⟨kept, also⟩ found unreached explored done
    rcases discipline.marked kept found unreached explored done with ⟨flagged_kept, persists⟩
    exact ⟨⟨flagged_kept, flagged kept also found⟩, persists⟩
  passed_over := fun kept => discipline.passed_over kept.1

/-! ## Requests -/

section Served

variable (context : Context) (Done : Memo → RuleId → ExprId → Prop)

/-- What was requested has been achieved. -/
def Served (memo : Memo) : Request → Prop
  | .group id goal => memo.Reached id goal
  | .expression id goal => ∃ expression, memo.Ripe id goal expression ∧
      ∀ rule ∈ context.phase goal, Done memo rule id
  | .applyRule rule id => Done memo rule id

/-- What a job has asked for in earlier steps has been achieved or is still awaited. -/
def Progressed (memo : Memo) (awaited : Request → Prop) : Job → Prop
  | .group ⟨id, goal, exploreRequired, dispatched⟩ =>
      dispatched ≤ (memo.logicalIds id).length ∧
        (∀ member ∈ (memo.logicalIds id).take dispatched,
          Served context Done memo (.expression member goal) ∨ awaited (.expression member goal)) ∧
          (exploreRequired = true → goal = .implement →
            memo.Reached id .explore ∨ awaited (.group id .explore))
  | .expression ⟨id, goal, childrenScheduled, rulesScheduled⟩ =>
      ∃ expression, memo.expression? id = some expression ∧
        (childrenScheduled = true → ∀ child ∈ expression.children,
          memo.Reached child goal ∨ awaited (.group child goal)) ∧
          (rulesScheduled = true → memo.Ripe id goal expression ∧
            ∀ rule ∈ context.phase goal, Done memo rule id ∨ awaited (.applyRule rule id))
  | .applyRule _ => True

end Served

/-- The request that a job serves. -/
def Job.request : Job → Request
  | .group job => .group job.group job.goal
  | .expression job => .expression job.expression job.goal
  | .applyRule job => .applyRule job.rule job.expression

@[simp]
theorem Request.request_job (request : Request) : request.job.request = request := by
  cases request <;> rfl

section Grows

variable {context : Context} {Done Later : Memo → RuleId → ExprId → Prop} {memo larger : Memo}

theorem Served.map (grows : memo.Grows larger)
    (persists : ∀ {rule id}, Done memo rule id → Later larger rule id) {request : Request}
    (served : Served context Done memo request) : Served context Later larger request := by
  cases request with
  | group id goal => exact grows.reached served
  | expression id goal =>
      rcases served with ⟨expression, ripe, done⟩
      rcases ripe.mono grows with ⟨applied, larger_ripe⟩
      exact ⟨_, larger_ripe, fun rule rule_mem => persists (done rule rule_mem)⟩
  | applyRule rule id => exact persists served

/-- A job stays as far as it has come if what it does not await any more has been achieved. -/
theorem Progressed.mono (grows : memo.Grows larger)
    (persists : ∀ {rule id}, Done memo rule id → Later larger rule id)
    {awaited later : Request → Prop}
    (implies : ∀ request, awaited request → later request ∨ Served context Later larger request)
    {job : Job} (progressed : Progressed context Done memo awaited job) :
    Progressed context Later larger later job := by
  have transfer (request : Request)
      (or_awaited : Served context Done memo request ∨ awaited request) :
      Served context Later larger request ∨ later request := by
    rcases or_awaited with served | waits
    · exact .inl (served.map grows persists)
    · exact (implies request waits).symm
  rcases job with ⟨id, goal, exploreRequired, dispatched⟩ |
    ⟨id, goal, childrenScheduled, rulesScheduled⟩ | job
  · rcases progressed with ⟨bounded, members, explored⟩
    have longer := grows.logicalIds id
    refine ⟨Nat.le_trans bounded longer.length_le, ?_, ?_⟩
    · rcases longer with ⟨others, longer_eq⟩
      rw [← longer_eq, List.take_append_of_le_length bounded]
      exact fun member member_mem => transfer _ (members member member_mem)
    · exact fun required implement =>
        transfer (.group id .explore) (explored required implement)
  · rcases progressed with ⟨expression, stored, children, rules⟩
    rcases grows.expressions stored with ⟨applied, larger_stored, -⟩
    refine ⟨_, larger_stored, ?_, ?_⟩
    · exact fun scheduled child child_mem =>
        transfer (.group child goal) (children scheduled child child_mem)
    · intro scheduled
      rcases rules scheduled with ⟨ripe, done⟩
      rcases ripe.mono grows with ⟨marks, larger_ripe⟩
      have same := larger_ripe.stored
      rw [larger_stored] at same
      cases same
      exact ⟨larger_ripe, fun rule rule_mem =>
        transfer (.applyRule rule id) (done rule rule_mem)⟩
  · exact trivial

end Grows

/-! ## Steps -/

/-- The requests that jobs make, each with the request that it is made for. -/
inductive Asks (context : Context) (memo : Memo) : Request → Request → Prop
  | exploration (id : GroupId) : Asks context memo (.group id .implement) (.group id .explore)
  | member {id : ExprId} {goal : Goal} {expression : Expression} :
      memo.expression? id = some expression → expression.operator.isLogical = true →
        Asks context memo (.group expression.group goal) (.expression id goal)
  | child {id : ExprId} {goal : Goal} {expression : Expression} {child : GroupId} :
      memo.expression? id = some expression → child ∈ expression.children →
        Asks context memo (.expression id goal) (.group child goal)
  | ownGroup {id : ExprId} {expression : Expression} : memo.expression? id = some expression →
      Asks context memo (.expression id .implement) (.group expression.group .explore)
  | rule {rule : RuleId} {id : ExprId} {goal : Goal} {expression : Expression} :
      rule ∈ context.phase goal → memo.Ripe id goal expression → context.Matched memo rule id →
        Asks context memo (.expression id goal) (.applyRule rule id)

/-- What the outcome of a step tells about the request of its job. -/
def Settles (context : Context) (Done : Memo → RuleId → ExprId → Prop) (memo after : Memo)
    (request : Request) : Except Failure Step → Prop
  | .ok .done => Served context Done after request
  | .ok (.suspend job requests) => after = memo ∧ job.request = request ∧
      Progressed context Done memo (· ∈ requests) job ∧
        (∀ asked ∈ requests, Asks context memo request asked) ∧
          ∀ id goal, request = .group id goal → ¬ memo.Reached id goal
  | .error _ => True

/-- What a step makes of a memo. -/
structure Achieves (context : Context) (Kept : Memo → Prop) (Done : Memo → RuleId → ExprId → Prop)
    (memo after : Memo) (request : Request) (outcome : Except Failure Step) : Prop where
  kept : Kept after
  grows : memo.Grows after
  persists : ∀ {rule id}, Done memo rule id → Done after rule id
  flags : ∀ {id goal}, after.Reached id goal → memo.Reached id goal ∨ request = .group id goal
  settles : Settles context Done memo after request outcome

section Steps

variable {context : Context} {Kept : Memo → Prop} {Done : Memo → RuleId → ExprId → Prop}
  {memo : Memo} {top : Goal}

/-- A step that changes no memo. -/
theorem achieves_of_settles {request : Request} {outcome : Except Failure Step} (kept : Kept memo)
    (settles : Settles context Done memo memo request outcome) :
    Achieves context Kept Done memo memo request outcome :=
  ⟨kept, .refl memo, fun done => done, fun reached => .inl reached, settles⟩

namespace GroupJob

variable {job : GroupJob}

/-- The steps of a group job: an early end, a detour, the end, and asking for more. -/
theorem stepIn_cases (job : GroupJob) (group : Group) :
    (group.reached job.goal = true ∧ job.stepIn group = (.done, false)) ∨
    (group.reached job.goal = false ∧
      ((job.goal = .implement ∧ job.stepIn group =
          (.suspend (.group { job with exploreRequired := true }) [.group job.group .explore], false)) ∨
        ((job.goal = .implement → job.exploreRequired = true ∨ group.explored = true) ∧
          ((group.logical.drop job.dispatched = [] ∧ job.stepIn group = (.done, true)) ∨
            job.stepIn group = (.suspend (.group { job with
                exploreRequired := job.exploreRequired || job.goal == .implement
                dispatched := job.dispatched + (group.logical.drop job.dispatched).length })
              ((group.logical.drop job.dispatched).map (.expression · job.goal)), false))))) := by
  cases reached : group.reached job.goal with
  | true => exact .inl ⟨rfl, by rw [stepIn, if_pos reached]⟩
  | false =>
      refine .inr ⟨rfl, ?_⟩
      by_cases first : job.goal = .implement ∧ ¬job.exploreRequired ∧ ¬group.explored
      · exact .inl ⟨first.1, by rw [stepIn, reached, if_neg Bool.false_ne_true, if_pos first]⟩
      · refine .inr ⟨?_, ?_⟩
        · intro implement
          cases required : job.exploreRequired with
          | true => exact .inl rfl
          | false =>
              cases explored : group.explored with
              | true => exact .inr rfl
              | false => exact (first ⟨implement, by simp [required], by simp [explored]⟩).elim
        · rw [stepIn, reached, if_neg Bool.false_ne_true, if_neg first]
          dsimp only
          cases group.logical.drop job.dispatched with
          | nil => exact .inl ⟨rfl, rfl⟩
          | cons member rest => exact .inr rfl

theorem step_achieves (stable : Stable context top Kept Done) (kept : Kept memo)
    (progressed : Progressed context Done memo (fun _ => False) (.group job)) :
    Achieves context Kept Done memo (job.step memo).1 (.group job.group job.goal)
      (job.step memo).2 := by
  rcases job with ⟨id, goal, exploreRequired, dispatched⟩
  rcases progressed with ⟨bounded, members, explored⟩
  cases found : memo.group? id with
  | none =>
      rw [step, found]
      exact achieves_of_settles kept trivial
  | some group =>
      have ids_eq : memo.logicalIds id = group.logical := by rw [Memo.logicalIds, found]
      have reached_iff (wanted : Goal) : memo.Reached id wanted ↔ group.reached wanted = true := by
        simp [Memo.Reached, found]
      rw [ids_eq] at bounded members
      have served (member : ExprId) (member_mem : member ∈ group.logical.take dispatched) :=
        (members member member_mem).resolve_right fun absurd => absurd
      rw [step, found]
      dsimp only
      rcases stepIn_cases ⟨id, goal, exploreRequired, dispatched⟩ group with
        ⟨reached, step_eq⟩ | ⟨unreached, cases⟩
      · rw [step_eq]
        exact achieves_of_settles kept ((reached_iff goal).mpr reached)
      · have open_ : ¬ memo.Reached id goal := by
          intro reached
          rw [reached_iff, unreached] at reached
          cases reached
        have still_open : ∀ other wanted, Request.group id goal = .group other wanted →
            ¬ memo.Reached other wanted := by
          intro other wanted same
          cases same
          exact open_
        rcases cases with ⟨implement, step_eq⟩ | ⟨ready, cases⟩
        · rw [step_eq]
          refine achieves_of_settles kept ⟨rfl, rfl, ⟨ids_eq ▸ bounded, ?_, ?_⟩, ?_, still_open⟩
          · exact fun member member_mem => .inl (served member (ids_eq ▸ member_mem))
          · exact fun _ _ => .inr List.mem_cons_self
          · intro asked asked_mem
            rw [List.mem_singleton.mp asked_mem, show goal = .implement from implement]
            exact .exploration id
        · have first_explored : goal = .implement → memo.Reached id .explore := by
            intro implement
            rcases ready implement with required | done
            · exact (explored required implement).resolve_right fun absurd => absurd
            · exact (reached_iff .explore).mpr done
          rcases cases with ⟨none_left, step_eq⟩ | step_eq
          · rw [step_eq]
            have all : group.logical.take dispatched = group.logical :=
              List.take_of_length_le (List.drop_eq_nil_iff.mp none_left)
            rw [all] at served
            rcases stable.marked kept found open_ first_explored served with ⟨marked, persists⟩
            refine ⟨marked, (Memo.extends_flagged found).grows, persists, ?_,
              (Memo.reached_flagged found).mpr (.inr ⟨rfl, rfl⟩)⟩
            intro other wanted reached
            rcases (Memo.reached_flagged found).mp reached with before | ⟨rfl, rfl⟩
            · exact .inl before
            · exact .inr rfl
          · rw [step_eq]
            refine achieves_of_settles kept ⟨rfl, rfl, ⟨?_, ?_, ?_⟩, ?_, still_open⟩
            · dsimp only
              rw [ids_eq, List.length_drop]
              omega
            · intro member member_mem
              have member_of := List.mem_of_mem_take member_mem
              rw [ids_eq, ← List.take_append_drop dispatched group.logical] at member_of
              rcases List.mem_append.mp member_of with old | new
              · exact .inl (served member old)
              · exact .inr (List.mem_map.mpr ⟨member, new, rfl⟩)
            · exact fun _ implement => .inl (first_explored implement)
            · intro asked asked_mem
              rcases List.mem_map.mp asked_mem with ⟨member, member_mem, rfl⟩
              rcases (stable.consistent kept).logical found (List.mem_of_mem_drop member_mem)
                with ⟨expression, stored, rfl, logical⟩
              exact .member stored logical

end GroupJob

namespace ExpressionJob

variable {job : ExpressionJob}

theorem mem_childRequests {goal : Goal} {children : List GroupId} {request : Request} :
    request ∈ childRequests goal children ↔ ∃ child ∈ children, request = .group child goal := by
  have fold (requests : List Request) :
      request ∈ children.foldl (fun requests child =>
        if requests.contains (.group child goal) then requests
        else requests ++ [.group child goal]) requests ↔
          request ∈ requests ∨ ∃ child ∈ children, request = .group child goal := by
    induction children generalizing requests with
    | nil => simp
    | cons child rest ih =>
        rw [List.foldl_cons, ih]
        split
        · rename_i known
          rw [List.contains_iff_mem] at known
          constructor
          · rintro (old | ⟨other, other_mem, rfl⟩)
            · exact .inl old
            · exact .inr ⟨other, List.mem_cons_of_mem child other_mem, rfl⟩
          · rintro (old | ⟨other, other_mem, rfl⟩)
            · exact .inl old
            · rcases List.mem_cons.mp other_mem with rfl | other_mem
              · exact .inl known
              · exact .inr ⟨other, other_mem, rfl⟩
        · rw [List.mem_append, List.mem_singleton, or_assoc]
          simp only [List.mem_cons, exists_eq_or_imp]
  rw [childRequests, fold]
  simp

theorem mem_insertByPromise {candidate other : Promise × RuleId}
    {candidates : List (Promise × RuleId)} :
    other ∈ insertByPromise candidate candidates ↔ other = candidate ∨ other ∈ candidates := by
  induction candidates with
  | nil => simp [insertByPromise]
  | cons first rest ih =>
      rw [insertByPromise]
      split
      · rw [List.mem_cons]
      · rw [List.mem_cons, ih, List.mem_cons, or_left_comm]

theorem mem_byPromise {candidates : List (Promise × RuleId)} {rule : RuleId} :
    rule ∈ byPromise candidates ↔ ∃ promise, (promise, rule) ∈ candidates := by
  have fold (other : Promise × RuleId) :
      other ∈ candidates.foldr insertByPromise [] ↔ other ∈ candidates := by
    induction candidates with
    | nil => rfl
    | cons first rest ih => rw [List.foldr_cons, mem_insertByPromise, ih, List.mem_cons]
  rw [byPromise, List.mem_map]
  constructor
  · rintro ⟨⟨promise, same⟩, candidate_mem, rfl⟩
    exact ⟨promise, (fold _).mp candidate_mem⟩
  · rintro ⟨promise, candidate_mem⟩
    exact ⟨(promise, rule), (fold _).mpr candidate_mem, rfl⟩

/-- Why a rule is passed over, and what is known of a candidate. -/
theorem candidate_cases {expression : Expression} {rule : RuleId}
    {found : Option (Promise × RuleId)}
    (candidate_eq : job.candidate context memo expression rule = .ok (.ok found)) :
    (found = none ∧ (memo.isApplied job.expression rule = .ok true ∨
      context.rules.isCompatible rule expression.origin = false ∨
        ∃ held, context.rules.lookup rule = .ok held ∧
          (held.pattern.fits memo job.expression = .ok false ∨
            held.promise expression memo context.catalog = .ok .none))) ∨
    ∃ held promise, found = some (promise, rule) ∧ context.rules.lookup rule = .ok held ∧
      held.pattern.fits memo job.expression = .ok true ∧
        held.promise expression memo context.catalog = .ok promise ∧ promise ≠ .none := by
  rw [candidate] at candidate_eq
  simp only [bind, Except.bind, pure, Except.pure] at candidate_eq
  split at candidate_eq
  · cases candidate_eq
  · rename_i applied applied_eq
    split at candidate_eq
    · rename_i isApplied
      cases candidate_eq
      exact .inl ⟨rfl, .inl (isApplied ▸ applied_eq)⟩
    · split at candidate_eq
      · rename_i incompatible
        cases candidate_eq
        exact .inl ⟨rfl, .inr (.inl (by simpa using incompatible))⟩
      · split at candidate_eq
        · cases candidate_eq
        · rename_i held lookup_eq
          split at candidate_eq
          · cases candidate_eq
          · rename_i fits fits_eq
            split at candidate_eq
            · rename_i misfit
              cases candidate_eq
              have fits_false : fits = false := by simpa using misfit
              exact .inl ⟨rfl, .inr (.inr ⟨held, lookup_eq, .inl (fits_false ▸ fits_eq)⟩)⟩
            · rename_i fit
              have fits_true : fits = true := by simpa using fit
              split at candidate_eq
              · cases candidate_eq
              · rename_i promise promise_eq
                split at candidate_eq
                · cases candidate_eq
                  exact .inl ⟨rfl, .inr (.inr ⟨held, lookup_eq, .inr promise_eq⟩)⟩
                · rename_i some_promise
                  cases candidate_eq
                  exact .inr ⟨held, promise, rfl, lookup_eq, fits_true ▸ fits_eq, promise_eq,
                    some_promise⟩

/-- What is found is a candidate among the listed rules. -/
theorem candidate_of_mem {expression : Expression} {rules : List RuleId}
    {found : List (Promise × RuleId)} {pair : Promise × RuleId}
    (candidates_eq : job.candidates context memo expression rules = .ok (.ok found))
    (pair_mem : pair ∈ found) :
    pair.2 ∈ rules ∧ job.candidate context memo expression pair.2 = .ok (.ok (some pair)) := by
  induction rules generalizing found with
  | nil =>
      cases candidates_eq
      cases pair_mem
  | cons rule rest ih =>
      rw [candidates] at candidates_eq
      simp only [bind, Except.bind, pure, Except.pure] at candidates_eq
      split at candidates_eq
      · cases candidates_eq
      · rename_i outcome candidate_eq
        split at candidates_eq
        · cases candidates_eq
        · split at candidates_eq
          · cases candidates_eq
          · rename_i rest_eq
            split at candidates_eq
            · cases candidates_eq
            · cases candidates_eq
              rcases List.mem_append.mp pair_mem with here | there
              · obtain rfl := Option.mem_toList.mp here
                rcases candidate_cases candidate_eq with ⟨absurd, -⟩ | ⟨_, _, same, -⟩
                · cases absurd
                · cases same
                  exact ⟨List.mem_cons_self, candidate_eq⟩
              · exact (ih rest_eq there).imp_left (List.mem_cons_of_mem rule)

/-- Each listed rule is a candidate or has been passed over. -/
theorem candidates_spec {expression : Expression} {rules : List RuleId}
    {found : List (Promise × RuleId)}
    (candidates_eq : job.candidates context memo expression rules = .ok (.ok found)) :
    (∀ rule ∈ rules, job.candidate context memo expression rule = .ok (.ok none) ∨
      ∃ promise, (promise, rule) ∈ found) ∧ ∀ pair ∈ found, pair.2 ∈ rules ∧
        context.Matched memo pair.2 job.expression := by
  refine ⟨?_, ?_⟩
  · induction rules generalizing found with
    | nil =>
        cases candidates_eq
        simp
    | cons rule rest ih =>
        rw [candidates] at candidates_eq
        simp only [bind, Except.bind, pure, Except.pure] at candidates_eq
        split at candidates_eq
        · cases candidates_eq
        · rename_i outcome candidate_eq
          split at candidates_eq
          · cases candidates_eq
          · rename_i first
            split at candidates_eq
            · cases candidates_eq
            · rename_i rest_eq
              split at candidates_eq
              · cases candidates_eq
              · rename_i others
                cases candidates_eq
                intro other other_mem
                rcases List.mem_cons.mp other_mem with rfl | other_mem
                · rcases candidate_cases candidate_eq with ⟨rfl, -⟩ | ⟨held, promise, rfl, -⟩
                  · exact .inl candidate_eq
                  · exact .inr ⟨promise, List.mem_append_left others List.mem_cons_self⟩
                · rcases ih rest_eq other other_mem with passed | ⟨promise, pair_mem⟩
                  · exact .inl passed
                  · exact .inr ⟨promise, List.mem_append_right _ pair_mem⟩
  · intro pair pair_mem
    rcases candidate_of_mem candidates_eq pair_mem with ⟨listed, candidate_eq⟩
    rcases candidate_cases candidate_eq with ⟨absurd, -⟩ | ⟨held, promise, -, lookup_eq, fits, -⟩
    · cases absurd
    · exact ⟨listed, held, memo, lookup_eq, .refl memo, fits⟩

theorem applicableRules_spec {expression : Expression} {rules : List RuleId}
    (rules_eq : job.applicableRules context memo expression = .ok (.ok rules)) :
    (∀ rule ∈ context.phase job.goal, job.candidate context memo expression rule = .ok (.ok none) ∨
      rule ∈ rules) ∧ ∀ rule ∈ rules, rule ∈ context.phase job.goal ∧
        context.Matched memo rule job.expression := by
  rw [applicableRules] at rules_eq
  simp only [bind, Except.bind, pure, Except.pure] at rules_eq
  split at rules_eq
  · cases rules_eq
  · rename_i outcome candidates_eq
    cases outcome with
    | error failure => cases rules_eq
    | ok found =>
        cases rules_eq
        rcases candidates_spec candidates_eq with ⟨each, listed⟩
        refine ⟨?_, ?_⟩
        · intro rule rule_mem
          rcases each rule rule_mem with passed | candidate_mem
          · exact .inl passed
          · exact .inr (mem_byPromise.mpr candidate_mem)
        · intro rule rule_mem
          rcases mem_byPromise.mp rule_mem with ⟨promise, pair_mem⟩
          exact listed _ pair_mem

/-- Whether a step of the job, if it is made on this memo, gets to choose rules. -/
def choosesRules (job : ExpressionJob) (memo : Memo) : Bool :=
  match memo.expression? job.expression with
  | none => false
  | some expression =>
      !job.rulesScheduled &&
        (job.childrenScheduled || (childRequests job.goal expression.children).isEmpty) &&
          (job.goal == .explore || (memo.group? expression.group).any Group.explored)

theorem choosesRules_of_ripe {expression : Expression}
    (ripe : memo.Ripe job.expression job.goal expression) (unscheduled : job.rulesScheduled = false)
    (children : job.childrenScheduled = true ∨ childRequests job.goal expression.children = []) :
    job.choosesRules memo = true := by
  rw [choosesRules, ripe.stored]
  have explored : (job.goal == .explore || (memo.group? expression.group).any Group.explored) =
      true := by
    cases goal_eq : job.goal with
    | explore => rfl
    | implement =>
        rcases ripe.explored goal_eq with ⟨group, found, reached⟩
        rw [found]
        exact reached
  rcases children with scheduled | none
  · simp [unscheduled, scheduled, explored]
  · simp [unscheduled, none, explored]

/-- Asking for rules comes after the children, and implementation after exploration. -/
theorem scheduleRules_settles (stable : Stable context top Kept Done) (kept : Kept memo)
    {expression : Expression} (stored : memo.expression? job.expression = some expression)
    (children : ∀ child ∈ expression.children, memo.Reached child job.goal)
    (rules : job.rulesScheduled = true → memo.Ripe job.expression job.goal expression ∧
      ∀ rule ∈ context.phase job.goal, Done memo rule job.expression)
    (passed_over : job.rulesScheduled = false → memo.Ripe job.expression job.goal expression →
      PassesOver context Done memo job)
    {outcome : Except Failure Step}
    (outcome_eq : job.scheduleRules context memo expression = .ok outcome) :
    Settles context Done memo memo (.expression job.expression job.goal) outcome := by
  rw [scheduleRules] at outcome_eq
  split at outcome_eq
  · rename_i scheduled
    cases outcome_eq
    exact ⟨expression, rules scheduled⟩
  · rename_i unscheduled
    have not_group : ∀ id goal, Request.expression job.expression job.goal = .group id goal →
        ¬ memo.Reached id goal := by
      intro id goal same
      cases same
    split at outcome_eq
    · cases outcome_eq
      trivial
    · rename_i goal_eq group_eq
      cases outcome_eq
      refine ⟨rfl, rfl, ⟨expression, stored, ?_, ?_⟩, ?_, not_group⟩
      · exact fun _ child child_mem => .inl (children child child_mem)
      · exact fun scheduled => (unscheduled scheduled).elim
      · intro asked asked_mem
        rw [List.mem_singleton.mp asked_mem, goal_eq]
        exact .ownGroup stored
    · rename_i not_missing not_unexplored
      have explored (implement : job.goal = .implement) :
          memo.Reached expression.group .explore := by
        rcases (stable.consistent kept).housed stored with ⟨group, group_found, -⟩
        cases explored : group.explored with
        | true => exact ⟨group, group_found, explored⟩
        | false =>
            rcases group with ⟨logical, physical, _, implemented⟩
            cases explored
            exact (not_unexplored logical physical implemented implement group_found).elim
      have ripe : memo.Ripe job.expression job.goal expression := ⟨stored, children, explored⟩
      have passes := passed_over (by simpa using unscheduled) ripe
      simp only [bind, Except.bind, pure, Except.pure] at outcome_eq
      split at outcome_eq
      · cases outcome_eq
      · rename_i rules_outcome rules_eq
        split at outcome_eq
        · cases outcome_eq
          trivial
        · cases outcome_eq
          refine ⟨expression, ripe, ?_⟩
          intro rule rule_mem
          rcases (applicableRules_spec rules_eq).1 rule rule_mem with passed | listed
          · exact passes rule expression rule_mem ripe passed
          · cases listed
        · rename_i listed some_rules
          cases outcome_eq
          rcases applicableRules_spec rules_eq with ⟨each, chosen⟩
          refine ⟨rfl, rfl, ⟨expression, stored, ?_, ?_⟩, ?_, not_group⟩
          · exact fun _ child child_mem => .inl (children child child_mem)
          · refine fun _ => ⟨ripe, ?_⟩
            intro rule rule_mem
            rcases each rule rule_mem with passed | isListed
            · exact .inl (passes rule expression rule_mem ripe passed)
            · exact .inr (List.mem_map.mpr ⟨rule, isListed, rfl⟩)
          · intro asked asked_mem
            rcases List.mem_map.mp asked_mem with ⟨rule, rule_mem, rfl⟩
            exact .rule (chosen rule rule_mem).1 ripe (chosen rule rule_mem).2

theorem step_settles (stable : Stable context top Kept Done) (kept : Kept memo)
    (progressed : Progressed context Done memo (fun _ => False) (.expression job))
    (passed_over : job.choosesRules memo = true → PassesOver context Done memo job)
    {outcome : Except Failure Step} (outcome_eq : job.step context memo = .ok outcome) :
    Settles context Done memo memo (.expression job.expression job.goal) outcome := by
  rcases job with ⟨id, goal, childrenScheduled, rulesScheduled⟩
  rcases progressed with ⟨expression, stored, children, rules⟩
  have rules_done (scheduled : rulesScheduled = true) : memo.Ripe id goal expression ∧
      ∀ rule ∈ context.phase goal, Done memo rule id :=
    ⟨(rules scheduled).1, fun rule rule_mem =>
      ((rules scheduled).2 rule rule_mem).resolve_right fun absurd => absurd⟩
  rw [step, stored] at outcome_eq
  dsimp only at outcome_eq
  split at outcome_eq
  · refine scheduleRules_settles stable kept stored ?_ rules_done ?_ outcome_eq
    · exact fun child child_mem => (children rfl child child_mem).resolve_right fun absurd => absurd
    · exact fun unscheduled ripe => passed_over (choosesRules_of_ripe ripe unscheduled (.inl rfl))
  · rename_i no_requests
    have no_children (child : GroupId) (child_mem : child ∈ expression.children) :
        memo.Reached child goal := by
      have asked : Request.group child goal ∈ childRequests goal expression.children :=
        mem_childRequests.mpr ⟨child, child_mem, rfl⟩
      rw [no_requests] at asked
      cases asked
    refine @scheduleRules_settles context Kept Done memo top ⟨id, goal, true, rulesScheduled⟩ stable
      kept expression stored no_children rules_done ?_ outcome outcome_eq
    exact fun unscheduled ripe =>
      passed_over (choosesRules_of_ripe ripe unscheduled (.inr no_requests))
  · cases outcome_eq
    refine ⟨rfl, rfl, ⟨expression, stored, ?_, ?_⟩, ?_, ?_⟩
    · exact fun _ child child_mem => .inr (mem_childRequests.mpr ⟨child, child_mem, rfl⟩)
    · exact fun scheduled => ⟨(rules_done scheduled).1, fun rule rule_mem =>
        .inl ((rules_done scheduled).2 rule rule_mem)⟩
    · intro asked asked_mem
      rcases mem_childRequests.mp asked_mem with ⟨child, child_mem, rfl⟩
      exact .child stored child_mem
    · intro other wanted same
      cases same

end ExpressionJob

end Steps

end Cascades
