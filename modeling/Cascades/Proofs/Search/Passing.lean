import Cascades.Proofs.Search.Liveness
import Cascades.Proofs.Search.Termination

/-!
# The states that a run passes

A run passes from state to state until it comes to rest, in a way that is determined by its first
state. So how it ends can be told from every state that it passes, and whatever its steps keep holds
of all of them.
-/

namespace Cascades

open Relation

namespace RunState

variable {context : Context} {state next last : RunState} {root : GroupId} {goal : Goal}
  {outcome : Checked (RunState × List StepRecord)} {steps : Nat} {records : List StepRecord}

/-- A step of a run leads from one state to another one. -/
def Steps (context : Context) (state next : RunState) : Prop :=
  ∃ record, state.advance context = .ok (next, some record)

/-- How a run ends does not depend on the number of its steps that is given. -/
theorem StopsIn.unique {other : Checked (RunState × List StepRecord)} {more : Nat}
    (stops : StopsIn context steps state outcome) (others : StopsIn context more state other) :
    outcome = other := by
  induction stops generalizing other more with
  | rest advance_eq =>
      cases others with
      | rest same => cases advance_eq.symm.trans same; rfl
      | dangle same => cases advance_eq.symm.trans same
      | step same => cases advance_eq.symm.trans same
  | dangle advance_eq =>
      cases others with
      | rest same => cases advance_eq.symm.trans same
      | dangle same => cases advance_eq.symm.trans same; rfl
      | step same => cases advance_eq.symm.trans same
  | step advance_eq _ ih =>
      cases others with
      | rest same => cases advance_eq.symm.trans same
      | dangle same => cases advance_eq.symm.trans same
      | step same others =>
          cases advance_eq.symm.trans same
          rw [ih others]

/-- How a run ends can be told from every state that it passes. -/
theorem StopsIn.of_steps (passed : ReflTransGen (Steps context) state next)
    (stops : StopsIn context steps next (.ok (last, records))) :
    ∃ more earlier, StopsIn context more state (.ok (last, earlier)) := by
  induction passed using ReflTransGen.head_induction_on with
  | refl => exact ⟨steps, records, stops⟩
  | head stepped _ ih =>
      rcases stepped with ⟨record, advance_eq⟩
      rcases ih with ⟨more, earlier, stops⟩
      exact ⟨more + 1, record :: earlier, .step advance_eq stops⟩

/-- After a step, a run ends as it would have before. -/
theorem StopsIn.tail {record : StepRecord}
    (stops : StopsIn context steps state (.ok (last, records)))
    (advance_eq : state.advance context = .ok (next, some record)) :
    ∃ more others, StopsIn context more next (.ok (last, others)) := by
  generalize outcome_eq : (Except.ok (last, records) : Checked _) = outcome at stops
  cases stops with
  | rest rest_eq => cases advance_eq.symm.trans rest_eq
  | dangle => cases outcome_eq
  | @step _ _ _ _ outcome step_eq stops =>
      cases advance_eq.symm.trans step_eq
      cases outcome with
      | error reference => cases outcome_eq
      | ok driven =>
          cases outcome_eq
          exact ⟨_, _, stops⟩

theorem Invariant.passes {Kept : Memo → Prop} {Done : Memo → RuleId → ExprId → Prop}
    (discipline : Discipline context goal Kept Done)
    (invariant : state.Invariant context Kept Done root goal)
    (passed : ReflTransGen (Steps context) state next) :
    next.Invariant context Kept Done root goal := by
  induction passed with
  | refl => exact invariant
  | tail _ stepped ih =>
      rcases stepped with ⟨record, advance_eq⟩
      exact (ih.advance discipline advance_eq).1

/-- Every state of a run is one of its agenda, in which no job is handed out. -/
theorem reached_of_steps {limit : Nat} {request : Request}
    (reached : Agenda.Reached limit request state.agenda [])
    (passed : ReflTransGen (Steps context) state next) :
    Agenda.Reached limit request next.agenda [] := by
  induction passed with
  | refl => exact reached
  | @tail before after _ stepped ih =>
      rcases stepped with ⟨record, advance_eq⟩
      rw [advance] at advance_eq
      cases next_eq : before.agenda.next before.progress.cancelled with
      | mk taken handed =>
          rw [next_eq] at advance_eq
          cases handed with
          | none => cases advance_eq
          | some pair =>
              simp only [bind, Except.bind, pure, Except.pure] at advance_eq
              split at advance_eq
              · cases advance_eq
              · rename_i stepped _
                cases advance_eq
                have settled := (ih.handOut next_eq).settle stepped.2 List.mem_cons_self
                rwa [List.erase_cons_head] at settled

/-- A failure is never forgotten. -/
theorem advance_running {record : Option StepRecord}
    (advance_eq : state.advance context = .ok (next, record))
    (running : next.agenda.failure = none) : state.agenda.failure = none := by
  cases failed : state.agenda.failure with
  | none => rfl
  | some failure =>
      rw [advance, Agenda.next_of_failure failed] at advance_eq
      cases advance_eq
      exact failed.symm.trans running

theorem StopsIn.running (stops : StopsIn context steps state outcome)
    (outcome_eq : outcome = .ok (last, records)) (running : last.agenda.failure = none) :
    state.agenda.failure = none := by
  induction stops generalizing records with
  | rest advance_eq =>
      cases outcome_eq
      exact advance_running advance_eq running
  | dangle => cases outcome_eq
  | @step _ _ _ _ outcome advance_eq _ ih =>
      cases outcome with
      | error reference => cases outcome_eq
      | ok driven =>
          cases outcome_eq
          exact advance_running advance_eq (ih rfl)

end RunState

namespace Memo

variable {memo : Memo} {rules : Rulebook} {catalog : Catalog} {config : SearchConfig}
  {root : GroupId} {report : RunReport}

theorem running_of_finish {agenda : Agenda} (finished : agenda.finish = .ok ()) :
    agenda.failure = none := by
  rw [Agenda.finish] at finished
  split at finished
  · cases finished
  · assumption

/-- A search that succeeds has driven its root job until it came to rest. -/
theorem Built.driven (built : memo.Built)
    (search_eq : memo.search rules catalog config root false = .ok report)
    (succeeded : report.outcome = .ok ()) : ∃ agenda steps last records,
      memo.holdsGroup root = true ∧
        (Agenda.empty config.maxJobs).seed (.group root config.goal) = .ok agenda ∧
          RunState.StopsIn (context rules catalog config) steps
            { memo.initialState config.maxJobs false with agenda } (.ok (last, records)) ∧
              report = last.report records := by
  rcases built.stops rules catalog config root false with ⟨steps, -, stops⟩
  rw [search_eq] at stops
  generalize outcome_eq : (Except.ok report : Checked RunReport) = outcome at stops
  cases stops with
  | unknown =>
      cases outcome_eq
      cases succeeded
  | refused =>
      cases outcome_eq
      cases succeeded
  | @driven agenda steps outcome holds seeded stops =>
      cases outcome with
      | error reference => cases outcome_eq
      | ok driven =>
          cases outcome_eq
          exact ⟨agenda, steps, driven.1, driven.2, holds, seeded, stops, rfl⟩

/-- A search gives what its root job comes to without a limit on the steps. -/
theorem Built.search_of_stops (built : memo.Built) (cancelled : Bool)
    (holds : memo.holdsGroup root = true) {agenda : Agenda} {steps : Nat} {last : RunState}
    {records : List StepRecord}
    (seeded : (Agenda.empty config.maxJobs).seed (.group root config.goal) = .ok agenda)
    (stops : RunState.StopsIn (context rules catalog config) steps
      { memo.initialState config.maxJobs cancelled with agenda } (.ok (last, records))) :
    memo.search rules catalog config root cancelled = .ok (last.report records) := by
  rcases built.stops rules catalog config root cancelled with ⟨more, -, search_stops⟩
  generalize memo.search rules catalog config root cancelled = outcome at search_stops
  cases search_stops with
  | unknown unheld => cases holds.symm.trans unheld
  | refused _ refused => cases seeded.symm.trans refused
  | driven _ same others =>
      cases seeded.symm.trans same
      rw [← stops.unique others]
      rfl

end Memo

end Cascades
