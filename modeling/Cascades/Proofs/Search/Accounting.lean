import Cascades.Proofs.Search.Effort
import Cascades.Proofs.Search.Implemented
import Cascades.Proofs.Search.Integrity
import Mathlib.Data.Set.Card

/-!
# What rules do is accounted for

A rule is marked on an expression before it is applied to it, its results are counted one by one as
they are stored, and a failure leaves behind what has been stored before it. So whatever the rules
are, and however the runs on a memo end, no rule is applied to an expression twice, and the counts of
each run agree with the marks, expressions and groups that it leaves behind.
-/

namespace Cascades

/-! ## Marks -/

namespace Memo

variable {memo larger largest : Memo} {calls more : List RuleJob}

/-- The rules that are recorded as applied, with the expressions that they have been applied to. -/
def marks (memo : Memo) : Set RuleJob :=
  {call | memo.isApplied call.expression call.rule = .ok true}

/-- The marks of a memo are those of another one and some others, which are listed once. -/
structure MarkedBy (memo larger : Memo) (calls : List RuleJob) : Prop where
  marks : larger.marks = memo.marks ∪ {call | call ∈ calls}
  fresh : ∀ call ∈ calls, call ∉ memo.marks
  nodup : calls.Nodup

namespace MarkedBy

theorem same (marks_eq : larger.marks = memo.marks) : memo.MarkedBy larger [] :=
  ⟨by simp [marks_eq], by simp, List.nodup_nil⟩

theorem trans (early : memo.MarkedBy larger calls) (late : larger.MarkedBy largest more) :
    memo.MarkedBy largest (calls ++ more) := by
  have kept {call : RuleJob} (marked : call ∈ memo.marks ∨ call ∈ calls) : call ∈ larger.marks := by
    rw [early.marks]
    exact marked
  refine ⟨?_, ?_, ?_⟩
  · rw [late.marks, early.marks, Set.union_assoc]
    congr 1
    ext call
    simp
  · intro call call_mem
    rcases List.mem_append.mp call_mem with old | new
    · exact early.fresh call old
    · exact fun marked => late.fresh call new (kept (.inl marked))
  · refine List.nodup_append.mpr ⟨early.nodup, late.nodup, ?_⟩
    rintro call old _ new rfl
    exact late.fresh call new (kept (.inr old))

/-- As many marks are new as rules are listed. -/
theorem ncard (marked : memo.MarkedBy larger calls) :
    (larger.marks \ memo.marks).ncard = calls.length := by
  classical
  have new_eq : larger.marks \ memo.marks = calls.toFinset := by
    ext call
    simp only [marked.marks, Set.mem_sdiff, Set.mem_union, Set.mem_ofPred_eq, List.coe_toFinset]
    constructor
    · rintro ⟨old | new, unmarked⟩
      · exact (unmarked old).elim
      · exact new
    · exact fun new => ⟨.inr new, marked.fresh call new⟩
  rw [new_eq, Set.ncard_coe_finset, List.toFinset_card_of_nodup marked.nodup]

end MarkedBy

/-! ## Sizes -/

/-- A memo has grown by one expression for each new group, and by some others in old groups. -/
structure Balanced (memo larger : Memo) (added : Nat) : Prop where
  groups : memo.groups.size ≤ larger.groups.size
  expressions : larger.expressions.size + memo.groups.size =
    memo.expressions.size + larger.groups.size + added

theorem Balanced.refl (memo : Memo) : memo.Balanced memo 0 :=
  ⟨Nat.le_refl _, rfl⟩

theorem Balanced.trans {added others : Nat} (early : memo.Balanced larger added)
    (late : larger.Balanced largest others) : memo.Balanced largest (added + others) := by
  rcases early with ⟨early_groups, early_expressions⟩
  rcases late with ⟨late_groups, late_expressions⟩
  constructor <;> omega

section Insert

variable {group : GroupId} {operator : Operator} {children : List GroupId} {origin : Option RuleId}

theorem size_expressions_push : (memo.push group operator children origin).expressions.size =
    memo.expressions.size + 1 :=
  Array.size_push _

theorem balanced_push : memo.Balanced (memo.push group operator children origin) 1 := by
  constructor
  · exact size_groups_push.ge
  · rw [size_expressions_push, size_groups_push]
    omega

theorem balanced_add (operator : Operator) (children : List GroupId) (origin : Option RuleId) :
    memo.Balanced (memo.add operator children origin).1 0 := by
  rw [add]
  split
  · exact .refl memo
  · change memo.Balanced (memo.opened.push memo.groups.size operator.canonical children origin) 0
    have expressions : memo.opened.expressions.size = memo.expressions.size := rfl
    constructor
    · rw [size_groups_push, size_groups_opened]
      exact Nat.le_succ _
    · rw [size_expressions_push, size_groups_push, size_groups_opened, expressions]
      omega

theorem balanced_addTo {insertion : Insertion}
    (added : memo.addTo group operator children origin = .ok (larger, insertion)) :
    memo.Balanced larger (if insertion.isNew then 1 else 0) := by
  rw [addTo] at added
  split at added
  · split at added <;> (cases added; exact .refl memo)
  · split at added
    · cases added
      exact balanced_push
    · cases added

end Insert

/-! ## Groups -/

/--
A memo has grown, but apart from one expression and one group nothing that it held has changed, not
even a mark or a flag.
-/
structure Confined (memo larger : Memo) (group : GroupId) (target : ExprId) : Prop where
  size_groups : memo.groups.size ≤ larger.groups.size
  size_expressions : memo.expressions.size ≤ larger.expressions.size
  groups : ∀ id < memo.groups.size, id ≠ group → larger.group? id = memo.group? id
  expressions : ∀ id < memo.expressions.size, id ≠ target →
    larger.expression? id = memo.expression? id

section Confined

variable {group : GroupId} {target : ExprId}

theorem Confined.push (confined : memo.Confined larger group target) {place : GroupId}
    (placed : place = group ∨ memo.groups.size ≤ place) (operator : Operator)
    (children : List GroupId) (origin : Option RuleId) :
    memo.Confined (larger.push place operator children origin) group target where
  size_groups := confined.size_groups.trans size_groups_push.ge
  size_expressions := by
    rw [size_expressions_push]
    exact confined.size_expressions.trans (Nat.le_succ _)
  groups := by
    intro id inside other
    rw [group?_push, if_neg, confined.groups id inside other]
    rintro rfl
    rcases placed with rfl | outside
    · exact other rfl
    · omega
  expressions := by
    intro id inside other
    have before : id < larger.expressions.size := inside.trans_le confined.size_expressions
    rw [expression?_push, if_neg before.ne, confined.expressions id inside other]

theorem Confined.opened (confined : memo.Confined larger group target) :
    memo.Confined larger.opened group target where
  size_groups := by
    rw [size_groups_opened]
    exact confined.size_groups.trans (Nat.le_succ _)
  size_expressions := confined.size_expressions
  groups := by
    intro id inside other
    have before : id < larger.groups.size := inside.trans_le confined.size_groups
    rw [group?_opened, if_neg before.ne, confined.groups id inside other]
  expressions := confined.expressions

theorem Confined.add (confined : memo.Confined larger group target) (operator : Operator)
    (children : List GroupId) (origin : Option RuleId) :
    memo.Confined (larger.add operator children origin).1 group target := by
  rw [Memo.add]
  split
  · exact confined
  · exact confined.opened.push (.inr confined.size_groups) operator.canonical children origin

theorem Confined.addTo (confined : memo.Confined larger group target) {operator : Operator}
    {children : List GroupId} {origin : Option RuleId} {insertion : Insertion}
    (added : larger.addTo group operator children origin = .ok (largest, insertion)) :
    memo.Confined largest group target := by
  rcases addTo_cases added with ⟨rfl, -⟩ | ⟨rfl, -⟩
  · exact confined
  · exact confined.push (.inl rfl) operator.canonical children origin

theorem confined_marked (consistent : memo.Consistent) {expression : Expression}
    (stored : memo.expression? target = some expression) (rule : RuleId) :
    memo.Confined (memo.marked expression rule) group target where
  size_groups := Nat.le_refl _
  size_expressions := by simp [marked]
  groups := fun _ _ _ => rfl
  expressions := by
    intro id inside other
    rw [expression?_marked consistent stored, if_neg (Ne.symm other)]

end Confined

end Memo

/-! ## Rule jobs -/

namespace RuleJob

open Memo

variable {context : Context} {memo : Memo} {job : RuleJob} {progress after : Progress}
  {expression : Expression} {outcome : Except Failure Step}

/-- The results that are counted are the expressions that do not come with a group of their own. -/
theorem insertAll_balanced {rule : RuleId} {group : GroupId} {results : List RuleResult}
    {added total : Nat} {larger : Memo} {outcome : Except Failure Unit}
    (inserted : insertAll rule group memo added results = .ok (larger, total, outcome)) :
    ∃ more, total = added + more ∧ memo.Balanced larger more := by
  induction results generalizing memo added with
  | nil =>
      cases inserted
      exact ⟨0, rfl, .refl _⟩
  | cons result rest ih =>
      have adds : Adds rule result.below (memo.Balanced · 0) :=
        fun _ operator _ children balanced =>
          balanced.trans (balanced_add operator children (some rule))
      have below : memo.Balanced (prepare rule memo result).1 0 := prepare_kept adds (.refl memo)
      rw [insertAll] at inserted
      split at inserted
      · rename_i stored failure prepared
        rw [prepared] at below
        cases inserted
        exact ⟨0, rfl, below⟩
      · rename_i stored operator groups prepared
        rw [prepared] at below
        simp only [bind, Except.bind] at inserted
        split at inserted
        · cases inserted
        · rename_i insertion added_eq
          rcases ih inserted with ⟨more, rfl, above⟩
          refine ⟨_, ?_, (below.trans (balanced_addTo added_eq)).trans above⟩
          split <;> omega

/-- A rule that is applied is counted, and so are its results, whatever becomes of it. -/
theorem counts_of_run {rule : Rule}
    (run_eq : job.run context rule expression progress = .ok (after, outcome)) :
    after.rulesApplied = progress.rulesApplied + 1 ∧
      ∃ added, after.expressionsAdded = progress.expressionsAdded + added ∧
        progress.memo.Balanced after.memo added := by
  rw [run] at run_eq
  simp only [bind, Except.bind, pure, Except.pure] at run_eq
  split at run_eq
  · cases run_eq
  · split at run_eq
    · cases run_eq
      exact ⟨rfl, 0, rfl, .refl _⟩
    · cases run_eq
      exact ⟨rfl, 0, rfl, .refl _⟩
    · split at run_eq
      · cases run_eq
      · rename_i inserted_eq
        cases run_eq
        rcases insertAll_balanced inserted_eq with ⟨added, total_eq, balanced⟩
        refine ⟨rfl, added, ?_, balanced⟩
        rw [total_eq, Nat.zero_add]

/-- The results of a rule go to the group of its expression and to new groups. -/
theorem confined_of_step (consistent : progress.memo.Consistent)
    (stored : progress.memo.expression? job.expression = some expression)
    (step_eq : job.step context progress = .ok (after, outcome)) :
    progress.memo.Confined after.memo expression.group job.expression := by
  rcases marks_of_step step_eq with ⟨-, marked, isNew, marked_eq, inserted⟩
  rw [markApplied_eq consistent stored] at marked_eq
  cases marked_eq
  have marks : progress.memo.Confined (progress.memo.marked expression job.rule) expression.group
      job.expression := confined_marked consistent stored job.rule
  rcases inserted with same | ⟨rule, held, application, results, added, kept, -, held_eq, -, -,
    inserted⟩
  · rw [same]
    exact marks
  · rw [expression?_marked consistent stored, if_pos rfl] at held_eq
    cases held_eq
    let Kept (larger : Memo) : Prop :=
      progress.memo.Confined larger expression.group job.expression
    exact @insertAll_kept _ job.rule Kept expression.group results 0 added after.memo kept
      (fun _ _ _ operator _ children confined => confined.add operator children (some job.rule))
      (fun _ confined _ added_eq => confined.addTo added_eq) marks inserted

end RuleJob

/-! ## Steps -/

/-- What a job applies: a rule job its rule, any other job nothing. -/
def Job.application? : Job → Option RuleJob
  | .applyRule job => some job
  | _ => none

/-- Between two moments of a run, the listed rules have been applied, and all that has been counted. -/
structure Ledger (before after : Progress) (calls : List RuleJob) : Prop where
  applied : after.rulesApplied = before.rulesApplied + calls.length
  marked : before.memo.MarkedBy after.memo calls
  balanced : ∃ added, after.expressionsAdded = before.expressionsAdded + added ∧
    before.memo.Balanced after.memo added

theorem Ledger.refl (progress : Progress) : Ledger progress progress [] :=
  ⟨rfl, .same rfl, 0, rfl, .refl _⟩

theorem Ledger.trans {before middle after : Progress} {calls more : List RuleJob}
    (early : Ledger before middle calls) (late : Ledger middle after more) :
    Ledger before after (calls ++ more) := by
  rcases early with ⟨early_applied, early_marked, early_added, early_eq, early_balanced⟩
  rcases late with ⟨late_applied, late_marked, late_added, late_eq, late_balanced⟩
  refine ⟨?_, early_marked.trans late_marked, early_added + late_added, ?_,
    early_balanced.trans late_balanced⟩
  · rw [late_applied, early_applied, List.length_append, Nat.add_assoc]
  · rw [late_eq, early_eq, Nat.add_assoc]

section Steps

variable {context : Context} {progress after : Progress} {outcome : Except Failure Step}

theorem GroupJob.ledger_of_step {job : GroupJob}
    (step_eq : (Job.group job).step context progress = .ok (after, outcome)) :
    Ledger progress after [] := by
  cases step_eq
  let Kept (memo : Memo) : Prop :=
    memo.marks = progress.memo.marks ∧ progress.memo.Balanced memo 0
  have kept : Kept (job.step progress.memo).1 := by
    refine @GroupJob.step_keeps progress.memo Kept ?_ ⟨rfl, .refl _⟩ job
    rintro memo id group goal ⟨marks, balanced⟩ found
    have flagged : memo.Balanced (memo.flagged id group goal) 0 := by
      constructor <;> simp [Memo.flagged]
    exact ⟨marks, balanced.trans flagged⟩
  exact ⟨rfl, .same kept.1, 0, rfl, kept.2⟩

theorem ExpressionJob.ledger_of_step {job : ExpressionJob}
    (step_eq : (Job.expression job).step context progress = .ok (after, outcome)) :
    Ledger progress after [] := by
  rw [Job.step] at step_eq
  simp only [bind, Except.bind, pure, Except.pure] at step_eq
  split at step_eq
  · cases step_eq
  · cases step_eq
    exact ⟨rfl, .same rfl, 0, rfl, .refl _⟩

/-- A rule that has not been applied to an expression is now, and once. -/
theorem RuleJob.ledger_of_step {job : RuleJob} {expression : Expression} {rule : Rule} {goal : Goal}
    (consistent : progress.memo.Consistent)
    (stored : progress.memo.expression? job.expression = some expression)
    (open_ : ¬ progress.memo.Reached expression.group goal)
    (unmarked : job ∉ progress.memo.marks) (lookup_eq : context.rules.lookup job.rule = .ok rule)
    (step_eq : job.step context progress = .ok (after, outcome)) : Ledger progress after [job] := by
  have not_applied : expression.applied.contains job.rule = false := by
    rw [← Bool.not_eq_true]
    exact fun applied => unmarked (Memo.isApplied_iff.mpr ⟨expression, stored, applied⟩)
  rcases @widens_of_step goal _ _ _ _ _ _ consistent stored (fun reached => (open_ reached).elim)
    step_eq with ⟨widens, applied⟩
  have marked : progress.memo.MarkedBy after.memo [job] := by
    refine ⟨?_, by simpa using unmarked, List.nodup_singleton job⟩
    ext call
    constructor
    · intro call_marked
      refine (isApplied_of_step consistent step_eq call_marked).imp_right ?_
      rintro ⟨expression_eq, rule_eq⟩
      cases call
      cases job
      cases expression_eq
      cases rule_eq
      exact List.mem_singleton_self _
    · rintro (old | new)
      · exact widens.grows.isApplied old
      · rw [List.mem_singleton.mp new]
        exact applied
  rw [step] at step_eq
  simp only [Memo.markApplied_eq consistent stored, not_applied, lookup_eq, Memo.expression,
    Memo.expression?_marked consistent stored, bind, Except.bind] at step_eq
  rcases counts_of_run step_eq with ⟨counted, added, added_eq, balanced⟩
  refine ⟨counted, marked, added, added_eq, ?_⟩
  have marks : progress.memo.Balanced (progress.memo.marked expression job.rule) 0 := by
    constructor <;> simp [Memo.marked]
  simpa using marks.trans balanced

/-! ## What expression jobs ask for -/

theorem Asks.ripe {memo : Memo} {request : Request} {call : RuleJob}
    (asks : Asks context memo request (.applyRule call.rule call.expression)) :
    ∃ goal expression, request = .expression call.expression goal ∧
      memo.Ripe call.expression goal expression := by
  cases asks with
  | rule _ ripe _ => exact ⟨_, _, rfl, ripe⟩

namespace ExpressionJob

variable {memo : Memo} {job : ExpressionJob} {expression : Expression}

/-- A rule that has already been applied to an expression is no candidate. -/
theorem isApplied_of_candidate {rule : RuleId} {found : Promise × RuleId}
    (candidate_eq : job.candidate context memo expression rule = .ok (.ok (some found))) :
    memo.isApplied job.expression rule = .ok false := by
  rw [candidate] at candidate_eq
  simp only [bind, Except.bind, pure, Except.pure] at candidate_eq
  split at candidate_eq
  · cases candidate_eq
  · rename_i applied applied_eq
    cases applied with
    | true => cases candidate_eq
    | false => exact applied_eq

/-- An expression job asks for no rule that has already been applied to its expression. -/
theorem unmarked_of_step {next : Job} {requests : List Request} {call : RuleJob}
    (ripe : memo.Ripe job.expression job.goal expression)
    (step_eq : job.step context memo = .ok (.ok (.suspend next requests)))
    (asked : .applyRule call.rule call.expression ∈ requests) : call ∉ memo.marks := by
  rcases step_suspends step_eq with ⟨same, stored, ⟨-, -, rfl⟩ | ⟨-, ⟨implement, unexplored⟩ |
    ⟨rules, rules_eq, -, rfl⟩⟩⟩
  · rcases mem_childRequests.mp asked with ⟨child, -, absurd⟩
    cases absurd
  · obtain rfl := Option.some.inj (ripe.stored.symm.trans stored)
    exact (unexplored (ripe.explored implement)).elim
  · rcases List.mem_map.mp asked with ⟨rule, rule_mem, call_eq⟩
    rcases Request.applyRule.inj call_eq with ⟨rule_eq, expression_eq⟩
    rw [applicableRules] at rules_eq
    simp only [bind, Except.bind, pure, Except.pure] at rules_eq
    split at rules_eq
    · cases rules_eq
    · rename_i outcome candidates_eq
      cases outcome with
      | error failure => cases rules_eq
      | ok found =>
          cases rules_eq
          rcases mem_byPromise.mp rule_mem with ⟨promise, pair_mem⟩
          have unmarked := isApplied_of_candidate (candidate_of_mem candidates_eq pair_mem).2
          intro marked
          rw [Memo.marks, Set.mem_ofPred_eq, ← rule_eq, ← expression_eq, unmarked] at marked
          cases marked

end ExpressionJob

end Steps

/-! ## Runs -/

theorem Job.mem_application? {job : Job} {call : RuleJob} :
    call ∈ job.application?.toList ↔ job = .applyRule call := by
  cases job <;> simp [application?, eq_comm]

namespace RunState

variable {context : Context} {root : GroupId} {goal : Goal} {state after : RunState}

/-- The rules that live jobs are to apply have not been applied yet. -/
def Unapplied (state : RunState) : Prop :=
  state.agenda.failure = none → ∀ call : RuleJob,
    state.agenda.Live (.applyRule call.rule call.expression) → call ∉ state.progress.memo.marks

theorem Unapplied.seeded {progress : Progress} {agenda : Agenda} {limit : Nat}
    (seeded : (Agenda.empty limit).seed (.group root goal) = .ok agenda) :
    Unapplied ⟨progress, agenda⟩ := by
  rcases Agenda.seed_spec seeded with ⟨-, -, -, -, -, only, -⟩
  intro _ call live
  cases only live

/-- What a run is known for between two steps: its jobs are in order, and their rules are open. -/
structure Accountable (context : Context) (root : GroupId) (goal : Goal) (state : RunState) :
    Prop where
  invariant : state.Invariant context Memo.Built (fun _ _ _ => True) root goal
  unapplied : state.Unapplied

section Step

variable {taken : Agenda} {id : JobId} {job : Job} {progress : Progress}
  {outcome : Except Failure Step}

theorem Accountable.ledger (accountable : state.Accountable context root goal)
    (next_eq : state.agenda.next state.progress.cancelled = (taken, some (id, job)))
    (took : state.agenda.Took id job.request job taken)
    (step_eq : job.step context state.progress = .ok (progress, outcome)) :
    Ledger state.progress progress job.application?.toList := by
  have running := Agenda.running_of_next next_eq
  cases job with
  | group job => exact GroupJob.ledger_of_step step_eq
  | expression job => exact ExpressionJob.ledger_of_step step_eq
  | applyRule job =>
      rcases (accountable.invariant.orderly running).asked took rfl with
        ⟨wanted, expression, -, -, ripe, open_, rule, earlier, lookup_eq, -, -⟩
      rcases took.stored with ⟨holder, entry, live, request_eq, -⟩
      have unmarked := accountable.unapplied running job ⟨holder, entry, live, request_eq⟩
      have ledger : Ledger { state.progress with executed := state.progress.executed + 1 } progress
          [job] :=
        RuleJob.ledger_of_step accountable.invariant.kept.consistent ripe.stored open_ unmarked
          lookup_eq step_eq
      exact ⟨ledger.applied, ledger.marked, ledger.balanced⟩

/-- A rule that is live after a step is not the one that the step has applied, nor is it marked. -/
theorem Accountable.unapplied_settle (accountable : state.Accountable context root goal)
    (next_eq : state.agenda.next state.progress.cancelled = (taken, some (id, job)))
    (took : state.agenda.Took id job.request job taken)
    (step_eq : job.step context state.progress = .ok (progress, outcome))
    (achieves : Achieves context Memo.Built (fun _ _ _ => True) state.progress.memo progress.memo
      job.request outcome) :
    Unapplied ⟨progress, taken.settle id outcome⟩ := by
  have running := Agenda.running_of_next next_eq
  have lowered := took.outstanding (taken.outstanding - 1)
  intro unfailed call live
  rcases outcome with failure | (_ | ⟨next, requests⟩)
  · exact (Agenda.fail_ne_none _ failure unfailed).elim
  · have completed := Agenda.complete_spec lowered.consistent lowered.handedOut
    rcases completed.live live with ⟨before, different⟩
    have unmarked := accountable.unapplied running call (lowered.live.mp before)
    change call ∉ progress.memo.marks
    rw [(accountable.ledger next_eq took step_eq).marked.marks]
    rintro (old | new)
    · exact unmarked old
    · rw [Set.mem_ofPred_eq, Job.mem_application?] at new
      exact different (congrArg Job.request new).symm
  · rcases Agenda.suspend_spec lowered.consistent lowered.handedOut with failed | suspended
    · exact (failed unfailed).elim
    · rcases achieves.settles with ⟨memo_eq, -, -, asks, -⟩
      change call ∉ progress.memo.marks
      rw [memo_eq]
      rcases suspended.live live with before | asked
      · exact accountable.unapplied running call (lowered.live.mp before)
      · rcases (asks _ asked).ripe with ⟨wanted, expression, request_eq, ripe⟩
        cases job with
        | group job => cases request_eq
        | applyRule job => cases request_eq
        | expression job =>
            rw [Job.step] at step_eq
            simp only [bind, Except.bind, pure, Except.pure] at step_eq
            split at step_eq
            · cases step_eq
            · rename_i stepped
              cases step_eq
              rcases Request.expression.inj request_eq with ⟨expression_eq, rfl⟩
              exact ExpressionJob.unmarked_of_step (expression_eq ▸ ripe) stepped asked

end Step

/-- A step keeps the accounts. -/
theorem Accountable.advance (accountable : state.Accountable context root goal)
    {record : Option StepRecord} (advance_eq : state.advance context = .ok (after, record)) :
    after.Accountable context root goal ∧
      Ledger state.progress after.progress (record.toList.filterMap (·.job.application?)) := by
  have discipline := built_discipline context goal
  have invariant := (accountable.invariant.advance discipline advance_eq).1
  rw [RunState.advance] at advance_eq
  cases next_eq : state.agenda.next state.progress.cancelled with
  | mk taken handed =>
      rw [next_eq] at advance_eq
      cases handed with
      | none =>
          cases advance_eq
          refine ⟨⟨invariant, ?_⟩, .refl _⟩
          intro unfailed call live
          cases failed : state.agenda.failure with
          | some failure =>
              rw [Agenda.next_of_failure failed] at next_eq
              cases next_eq
              cases failed.symm.trans unfailed
          | none =>
              rcases Agenda.next_none (accountable.invariant.orderly failed).consistent next_eq with
                rfl | failed_now
              · exact accountable.unapplied failed call live
              · exact (failed_now unfailed).elim
      | some pair =>
          rcases pair with ⟨id, job⟩
          simp only [bind, Except.bind, pure, Except.pure] at advance_eq
          split at advance_eq
          · cases advance_eq
          · rename_i stepped step_eq
            rcases stepped with ⟨progress, outcome⟩
            cases advance_eq
            rcases accountable.invariant.achieves discipline.toStable next_eq
              (fun _ _ => discipline.passed_over accountable.invariant.kept) step_eq with
              ⟨took, achieves⟩
            have ledger := accountable.ledger next_eq took step_eq
            refine ⟨⟨invariant, accountable.unapplied_settle next_eq took step_eq achieves⟩, ?_⟩
            cases job <;> exact ledger

/-- Any number of steps keeps the accounts. -/
theorem Accountable.drive (accountable : state.Accountable context root goal) {steps : Nat}
    {records : List StepRecord} (drive_eq : state.drive context steps = .ok (after, records)) :
    after.Accountable context root goal ∧
      Ledger state.progress after.progress (records.filterMap (·.job.application?)) := by
  induction steps generalizing state records with
  | zero =>
      cases drive_eq
      exact ⟨accountable, .refl _⟩
  | succ steps ih =>
      rw [RunState.drive] at drive_eq
      simp only [bind, Except.bind, pure, Except.pure] at drive_eq
      split at drive_eq
      · cases drive_eq
      · rename_i advanced advance_eq
        rcases advanced with ⟨middle, record⟩
        rcases accountable.advance advance_eq with ⟨between, first⟩
        cases record with
        | none =>
            cases drive_eq
            exact ⟨between, first⟩
        | some record =>
            dsimp only at drive_eq
            split at drive_eq
            · cases drive_eq
            · rename_i driven rest_eq
              rcases driven with ⟨last, others⟩
              cases drive_eq
              rcases ih between rest_eq with ⟨later, rest⟩
              refine ⟨later, ?_⟩
              have ledger := first.trans rest
              rwa [← List.filterMap_append] at ledger

end RunState

/-! ## Sequences of runs -/

/--
The rules that were handed an expression in a run, in the order of the steps. A step of a rule job
hands its rule the expression at most once, other steps hand none to any rule.
-/
def RunReport.applications (report : RunReport) : List RuleJob :=
  report.steps.filterMap (·.job.application?)

/-- A run, and the memo that it was started on. -/
structure LoggedRun where
  before : Memo
  report : RunReport

/-- The rules that were handed an expression, in one run after the other. -/
def applicationsOf (runs : List LoggedRun) : List RuleJob :=
  runs.flatMap (·.report.applications)

/-- The counts of a run agree with what it has made of its memo. -/
structure LoggedRun.Accounted (run : LoggedRun) : Prop where
  marks : run.report.memo.marks = run.before.marks ∪ {call | call ∈ run.report.applications}
  applications : run.report.counts.rulesApplied = run.report.applications.length
  rulesApplied : run.report.counts.rulesApplied =
    (run.report.memo.marks \ run.before.marks).ncard
  groups : run.before.groups.size ≤ run.report.memo.groups.size
  expressions : run.before.expressions.size ≤ run.report.memo.expressions.size
  expressionsAdded : run.report.memo.expressions.size - run.before.expressions.size =
    run.report.counts.expressionsAdded +
      (run.report.memo.groups.size - run.before.groups.size)

namespace Memo

variable {memo last : Memo} {rules : Rulebook} {catalog : Catalog} {config : SearchConfig}
  {root : GroupId} {report : RunReport} {runs : List LoggedRun}

/--
Runs with the same rules, each of them on the memo that the one before has left behind. They may
differ in all else and end in any way.
-/
inductive Serial (rules : Rulebook) (memo : Memo) : List LoggedRun → Memo → Prop
  | none : Serial rules memo [] memo
  | next {runs : List LoggedRun} {middle : Memo} {catalog : Catalog} {config : SearchConfig}
      {root : GroupId} {report : RunReport} :
      Serial rules memo runs middle → middle.Runs rules catalog config root report →
        Serial rules memo (runs ++ [⟨middle, report⟩]) report.memo

/-- What becomes of the books of a run. -/
theorem Runs.ledger (built : memo.Built) (runs : memo.Runs rules catalog config root report) :
    memo.MarkedBy report.memo report.applications ∧
      report.counts.rulesApplied = report.applications.length ∧
        memo.Balanced report.memo report.counts.expressionsAdded := by
  rcases runs.cases with ⟨memo_eq, -, steps_eq, counts_eq⟩ | ⟨cancelled, agenda, early, middle,
    earlier, continued, late, state, later, seeded, early_eq, continued_eq, late_eq, rfl⟩
  · rw [RunReport.applications, memo_eq, steps_eq, counts_eq]
    exact ⟨.same rfl, rfl, .refl memo⟩
  · have started : RunState.Accountable (context rules catalog config) root config.goal
        { memo.initialState config.maxJobs cancelled with agenda } :=
      ⟨.seeded built seeded, .seeded seeded⟩
    rcases started.drive early_eq with ⟨between, first⟩
    have resumed : continued.Accountable (context rules catalog config) root config.goal ∧
        Ledger (memo.initialState config.maxJobs cancelled).progress continued.progress
          (earlier.filterMap (·.job.application?)) := by
      rcases continued_eq with rfl | rfl
      · exact ⟨between, first⟩
      · exact ⟨⟨⟨between.invariant.kept, between.invariant.orderly⟩, between.unapplied⟩,
          first.applied, first.marked, first.balanced⟩
    rcases resumed with ⟨resumed, first⟩
    have ledger := first.trans (resumed.drive late_eq).2
    rw [← List.filterMap_append] at ledger
    rcases ledger.balanced with ⟨added, added_eq, balanced⟩
    refine ⟨ledger.marked, ?_, ?_⟩
    · exact ledger.applied.trans (Nat.zero_add _)
    · rw [show (state.report (earlier ++ later)).counts.expressionsAdded = added from
        added_eq.trans (Nat.zero_add _)]
      exact balanced

theorem Runs.accounted (built : memo.Built) (runs : memo.Runs rules catalog config root report) :
    LoggedRun.Accounted ⟨memo, report⟩ := by
  rcases runs.ledger built with ⟨marked, applied, balanced⟩
  rcases balanced with ⟨groups, expressions⟩
  refine ⟨marked.marks, applied, applied.trans marked.ncard.symm, groups, ?_, ?_⟩ <;>
    dsimp only <;> omega

/-- All runs of a sequence together mark the rules that they hand an expression, each of them once. -/
theorem Serial.ledger (built : memo.Built) (serial : memo.Serial rules runs last) :
    last.Built ∧ memo.MarkedBy last (applicationsOf runs) ∧ ∀ run ∈ runs, run.Accounted := by
  induction serial with
  | none => exact ⟨built, .same rfl, by simp⟩
  | next _ ran ih =>
      rcases ih with ⟨middle_built, marked, accounted⟩
      refine ⟨middle_built.runs ran, ?_, ?_⟩
      · rw [applicationsOf, List.flatMap_append, List.flatMap_singleton]
        exact marked.trans (ran.ledger middle_built).1
      · intro run run_mem
        rcases List.mem_append.mp run_mem with old | new
        · exact accounted run old
        · rw [List.mem_singleton.mp new]
          exact ran.accounted middle_built

/--
In any sequence of runs with the same rules, however they end, no rule is handed an expression
twice, and the counts of each run agree with the marks, expressions and groups that it has added. A
step that applies a rule to an expression, whatever its outcome, changes no other expression and no
other group that has existed before, apart from the group of the expression.
-/
theorem runs_accounted (built : memo.Built) (serial : memo.Serial rules runs last) :
    (applicationsOf runs).Nodup ∧ (∀ run ∈ runs, run.Accounted) ∧
      ∀ {context : Context} {job : RuleJob} {progress after : Progress}
        {outcome : Except Failure Step}, progress.memo.Built →
        job.step context progress = .ok (after, outcome) →
          ∃ expression, progress.memo.expression? job.expression = some expression ∧
            progress.memo.Confined after.memo expression.group job.expression := by
  rcases serial.ledger built with ⟨-, marked, accounted⟩
  refine ⟨marked.nodup, accounted, ?_⟩
  intro context job progress after outcome step_built step_eq
  have consistent := step_built.consistent
  rcases RuleJob.marks_of_step step_eq with ⟨-, larger, isNew, marked_eq, -⟩
  rcases marked_of_markApplied consistent marked_eq with ⟨expression, stored, -⟩
  exact ⟨expression, stored, RuleJob.confined_of_step consistent stored step_eq⟩

/-- An exploration of the chain that may create twenty jobs, and another one that has enough. -/
def chainExploredTwice :=
  tested (chain.resumed ⟨20, none, false⟩ ⟨100, none, false⟩ 4) (fun reports =>
    decide (reports.1.outcome = .error (.budgetExhausted 20) ∧ reports.2.outcome = .ok () ∧
      reports.1.counts.rulesApplied = 3 ∧ reports.2.counts.rulesApplied = 3)) (by decide +kernel)

/-- The step that applies associativity to the upper join of the chain. -/
def chainReassociated :=
  tested (RuleJob.step ⟨1, 4⟩ (context .standard .empty .standard) ⟨chain, 0, 0, 0, false⟩).toOption
    (fun stepped => decide (stepped.1.memo.groups.size = 6)) (by decide +kernel)

/--
Half of the six rules of this example are applied before the limit on jobs ends the first run, the
others in the second run. Associativity creates a group and changes that of the upper join only.
-/
theorem runs_accounted_chain : ∃ aborted report : RunReport, ∃ after outcome,
    chain.search .standard .empty ⟨20, none, false⟩ 4 false = .ok aborted ∧
      aborted.outcome = .error (.budgetExhausted 20) ∧ aborted.counts.rulesApplied = 3 ∧
    aborted.memo.search .standard .empty ⟨100, none, false⟩ 4 false = .ok report ∧
      report.outcome = .ok () ∧ report.counts.rulesApplied = 3 ∧
    (applicationsOf [⟨chain, aborted⟩, ⟨aborted.memo, report⟩]).Nodup ∧
      LoggedRun.Accounted ⟨chain, aborted⟩ ∧ LoggedRun.Accounted ⟨aborted.memo, report⟩ ∧
    RuleJob.step ⟨1, 4⟩ (context .standard .empty .standard) ⟨chain, 0, 0, 0, false⟩ =
        .ok (after, outcome) ∧
      after.memo.groups.size = 6 ∧ chain.Confined after.memo 4 4 := by
  rcases chainExploredTwice with ⟨⟨aborted, report⟩, resumed_eq, facts⟩
  rcases of_resumed resumed_eq with ⟨aborted_eq, report_eq⟩
  rcases of_decide_eq_true facts with ⟨exhausted, succeeded, first, second⟩
  rcases chainReassociated with ⟨⟨after, outcome⟩, stepped, step_facts⟩
  have step_eq := eq_ok_of_toOption stepped
  have groups := of_decide_eq_true step_facts
  have first_run := Serial.next .none (.inl ⟨false, aborted_eq⟩)
  have serial : chain.Serial .standard [⟨chain, aborted⟩, ⟨aborted.memo, report⟩] report.memo :=
    first_run.next (.inl ⟨false, report_eq⟩)
  rcases runs_accounted built_chain serial with ⟨nodup, accounted, confined⟩
  rcases confined built_chain step_eq with ⟨expression, stored, upper⟩
  have place : (chain.expression? 4).map Expression.group = some 4 := by decide
  rw [stored] at place
  rw [Option.some.inj place] at upper
  exact ⟨aborted, report, after, outcome, aborted_eq, exhausted, first, report_eq, succeeded, second,
    nodup, accounted _ (by simp), accounted _ (by simp), step_eq, groups, upper⟩

end Memo

end Cascades
