import Cascades.Proofs.Search.Discipline

/-!
# Failures of steps

A step fails because of a rule that does not exist or fails itself, or of a reference to nothing. All
other failures of a run are those of its agenda.
-/

namespace Cascades

/-- The kinds of failures that a step can have by itself. -/
def FailureKind.OfStep (kind : FailureKind) : Prop :=
  kind = .unknownRule ∨ kind = .graphCorruption ∨ kind = .ruleFailed

section Failures

variable {context : Context} {memo after : Memo} {failure : Failure}

theorem Rulebook.lookup_failure {rules : Rulebook} {id : RuleId}
    (failed : rules.lookup id = .error failure) : failure.kind.OfStep := by
  rw [lookup] at failed
  split at failed <;> cases failed <;> exact .inl rfl

namespace ExpressionJob

variable {job : ExpressionJob} {expression : Expression}

/-- Weighing a rule only fails if there is no such rule. -/
theorem candidate_failure {id : RuleId}
    (failed : job.candidate context memo expression id = .ok (.error failure)) :
    context.rules.lookup id = .error failure := by
  rw [candidate] at failed
  simp only [bind, Except.bind, pure, Except.pure] at failed
  split at failed
  · cases failed
  · split at failed
    · cases failed
    · split at failed
      · cases failed
      · split at failed
        · rename_i refused lookup_eq
          cases failed
          exact lookup_eq
        · split at failed
          · cases failed
          · split at failed
            · cases failed
            · split at failed
              · cases failed
              · split at failed <;> cases failed

theorem candidates_failure {ids : List RuleId}
    (failed : job.candidates context memo expression ids = .ok (.error failure)) :
    ∃ id ∈ ids, context.rules.lookup id = .error failure := by
  induction ids with
  | nil => cases failed
  | cons id rest ih =>
      rw [candidates] at failed
      simp only [bind, Except.bind, pure, Except.pure] at failed
      split at failed
      · cases failed
      · rename_i first_eq
        split at failed
        · cases failed
          exact ⟨id, List.mem_cons_self, candidate_failure first_eq⟩
        · split at failed
          · cases failed
          · rename_i rest_eq
            split at failed
            · cases failed
              rcases ih rest_eq with ⟨other, other_mem, lookup_eq⟩
              exact ⟨other, List.mem_cons_of_mem id other_mem, lookup_eq⟩
            · cases failed

theorem scheduleRules_failure
    (failed : job.scheduleRules context memo expression = .ok (.error failure)) :
    (∃ rule ∈ context.phase job.goal, context.rules.lookup rule = .error failure) ∨
      (memo.group? expression.group = none ∧
        failure = .corrupted (.unknownGroup expression.group)) := by
  rw [scheduleRules] at failed
  split at failed
  · cases failed
  · split at failed
    · rename_i missing
      cases failed
      exact .inr ⟨missing, rfl⟩
    · cases failed
    · simp only [applicableRules, bind, Except.bind, pure, Except.pure] at failed
      cases found_eq : job.candidates context memo expression
          ((context.rules.rulesFor job.goal).intersection context.mask).toList with
      | error reference =>
          rw [found_eq] at failed
          cases failed
      | ok outcome =>
          rw [found_eq] at failed
          cases outcome with
          | error refused =>
              cases failed
              exact .inl (candidates_failure found_eq)
          | ok found =>
              dsimp only [Except.map] at failed
              split at failed
              · rename_i absurd
                cases absurd
              · cases failed
              · cases failed

/-- An expression job fails for want of a rule, or if its expression or the group of it is missing. -/
theorem step_failure (failed : job.step context memo = .ok (.error failure)) :
    (∃ rule ∈ context.phase job.goal, context.rules.lookup rule = .error failure) ∨
      (failure.kind = .graphCorruption ∧ ∀ expression,
        memo.expression? job.expression = some expression → memo.group? expression.group = none) := by
  rw [step] at failed
  split at failed
  · rename_i missing
    cases failed
    refine .inr ⟨rfl, fun expression stored => ?_⟩
    rw [missing] at stored
    cases stored
  · rename_i expression stored
    have schedule (schedule_eq : scheduleRules { job with childrenScheduled := true } context memo
        expression = .ok (.error failure)) :
        (∃ rule ∈ context.phase job.goal, context.rules.lookup rule = .error failure) ∨
          (failure.kind = .graphCorruption ∧ ∀ expression,
            memo.expression? job.expression = some expression →
              memo.group? expression.group = none) := by
      refine (scheduleRules_failure schedule_eq).imp_right ?_
      rintro ⟨missing, rfl⟩
      refine ⟨rfl, fun same same_stored => ?_⟩
      cases stored.symm.trans same_stored
      exact missing
    dsimp only at failed
    split at failed
    · exact schedule failed
    · exact schedule failed
    · cases failed

end ExpressionJob

namespace RuleJob

variable {rule : RuleId}

theorem checkGroups_failure {groups : List GroupId}
    (failed : checkGroups rule memo groups = .error failure) :
    failure.kind.OfStep := by
  rw [checkGroups] at failed
  split at failed <;> cases failed
  exact .inr (.inl rfl)

theorem map_failure {α β : Type} {f : α → β} {checked : Except Failure α}
    (failed : checked.map f = .error failure) : checked = .error failure := by
  cases checked with
  | error refused => cases failed; rfl
  | ok value => cases failed

mutual

theorem store_failure {memo after : Memo} : (plan : Subplan) →
    store rule memo plan = (after, .error failure) → failure.kind.OfStep
  | .group id, failed => by
      rw [store] at failed
      exact checkGroups_failure (map_failure (Prod.mk.inj failed).2)
  | .fresh operator children, failed => by
      rw [store] at failed
      split at failed
      · rename_i stored_eq
        cases failed
        exact storeAll_failure children stored_eq
      · cases failed

theorem storeAll_failure {memo after : Memo} : (plans : List Subplan) →
    storeAll rule memo plans = (after, .error failure) → failure.kind.OfStep
  | [], failed => by
      rw [storeAll] at failed
      cases failed
  | child :: rest, failed => by
      rw [storeAll] at failed
      split at failed
      · rename_i stored_eq
        cases failed
        exact store_failure child stored_eq
      · split at failed
        · rename_i rest_eq
          cases failed
          exact storeAll_failure rest rest_eq
        · cases failed

end

theorem prepare_failure {result : RuleResult}
    (failed : prepare rule memo result = (after, .error failure)) :
    failure.kind.OfStep := by
  cases result with
  | substitution operator children =>
      exact checkGroups_failure (map_failure (Prod.mk.inj failed).2)
  | nested operator children =>
      rw [prepare] at failed
      cases stored_eq : storeAll rule memo children with
      | mk stored outcome =>
          rw [stored_eq] at failed
          rcases Prod.mk.inj failed with ⟨-, mapped⟩
          rw [map_failure mapped] at stored_eq
          exact storeAll_failure children stored_eq

theorem insertAll_failure {group : GroupId} {results : List RuleResult} {added total : Nat}
    (failed : insertAll rule group memo added results = .ok (after, total, .error failure)) :
    failure.kind.OfStep := by
  induction results generalizing memo added with
  | nil => cases failed
  | cons result rest ih =>
      rw [insertAll] at failed
      split at failed
      · rename_i prepared
        cases failed
        exact prepare_failure prepared
      · simp only [bind, Except.bind] at failed
        split at failed
        · cases failed
        · exact ih failed

theorem step_failure {job : RuleJob} {progress later : Progress}
    (failed : job.step context progress = .ok (later, .error failure)) :
    failure.kind.OfStep := by
  rw [step] at failed
  simp only [bind, Except.bind, pure, Except.pure] at failed
  split at failed
  · cases failed
  · split at failed
    · cases failed
    · split at failed
      · rename_i lookup_eq
        cases failed
        exact Rulebook.lookup_failure lookup_eq
      · split at failed
        · cases failed
        · rw [run] at failed
          simp only [bind, Except.bind, pure, Except.pure] at failed
          split at failed
          · cases failed
          · split at failed
            · cases failed
            · cases failed
              exact .inr (.inr rfl)
            · split at failed
              · cases failed
              · rename_i inserted inserted_eq
                rcases inserted with ⟨stored, added, outcome⟩
                cases outcome with
                | ok => cases failed
                | error refused =>
                    cases failed
                    exact insertAll_failure inserted_eq

end RuleJob

/-- What a step can fail for. -/
theorem Job.step_failure {job : Job} {progress later : Progress}
    (failed : job.step context progress = .ok (later, .error failure)) :
    failure.kind.OfStep := by
  cases job with
  | group job =>
      rw [Job.step, GroupJob.step] at failed
      dsimp only at failed
      split at failed
      · cases failed
        exact .inr (.inl rfl)
      · split at failed <;> cases failed
  | expression job =>
      rw [Job.step] at failed
      simp only [bind, Except.bind, pure, Except.pure] at failed
      split at failed
      · cases failed
      · rename_i outcome_eq
        cases failed
        rcases ExpressionJob.step_failure outcome_eq with ⟨rule, -, lookup_eq⟩ | ⟨kind_eq, -⟩
        · exact Rulebook.lookup_failure lookup_eq
        · exact .inr (.inl kind_eq)
  | applyRule job => exact RuleJob.step_failure failed

end Failures

end Cascades
