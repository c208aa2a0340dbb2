import Cascades.Proofs.PlanSpace.Exactness
import Cascades.Proofs.Search.Failures
import Cascades.Proofs.Search.Layers
import Cascades.Proofs.Search.Liveness

/-!
# Cycles of jobs and cycles of groups

A run is refused a request only if the job that serves it already waits for the asking job. Jobs wait
for the children of their expression, or for jobs of the same group that have less left to do, so such
a circle of jobs leads through groups that read each other in a circle. A run that succeeds, on the
other hand, has put all groups below its root into layers.
-/

namespace Cascades

open Relation

/-! ## Requests in the memo -/

namespace Request

/-- The group that a request is about, if its expression exists. -/
def home (memo : Memo) : Request → Option GroupId
  | .group id _ => some id
  | .expression id _ => (memo.expression? id).map Expression.group
  | .applyRule _ id => (memo.expression? id).map Expression.group

/-- How much of the work on a group is left before a request about it. -/
def rank : Request → Nat
  | .group _ .implement => 4
  | .expression _ .implement => 3
  | .group _ .explore => 2
  | .expression _ .explore => 1
  | .applyRule _ _ => 0

end Request

section Asks

variable {context : Context} {memo : Memo} {first second : Request}

/-- Either a job stays within its group and turns to less work, or it turns to a group that is read. -/
structure Request.Stays (memo : Memo) (first second : Request) : Prop where
  home : first.home memo = second.home memo
  rank : second.rank < first.rank

/-- The group of one request reads, through other groups perhaps, the group of another one. -/
def Request.Descends (memo : Memo) (first second : Request) : Prop :=
  ∃ upper lower, first.home memo = some upper ∧ second.home memo = some lower ∧
    TransGen (memo.LeadsTo .logical) upper lower

/-- Jobs are made for logical expressions only. -/
def Request.Proper (memo : Memo) : Request → Prop
  | .expression id _ => ∃ expression, memo.expression? id = some expression ∧
      expression.operator.isLogical = true
  | _ => True

theorem Asks.proper (asks : Asks context memo first second) : second.Proper memo := by
  cases asks with
  | member stored logical => exact ⟨_, stored, logical⟩
  | exploration => trivial
  | child => trivial
  | ownGroup => trivial
  | rule => trivial

theorem Asks.stays_or_descends (consistent : memo.Consistent) (proper : first.Proper memo)
    (asks : Asks context memo first second) :
    first.Stays memo second ∨ first.Descends memo second := by
  cases asks with
  | exploration id => exact .inl ⟨rfl, by simp [Request.rank]⟩
  | @member id goal expression stored logical =>
      refine .inl ⟨by simp [Request.home, stored], ?_⟩
      cases goal <;> simp [Request.rank]
  | @child id goal expression child stored child_mem =>
      rcases proper with ⟨same, same_stored, logical⟩
      cases stored.symm.trans same_stored
      refine .inr ⟨expression.group, child, by simp [Request.home, stored], rfl, .single ?_⟩
      exact consistent.leadsTo_iff.mpr
        ⟨id, expression, stored, rfl, by simp [Operator.planKind, logical], child_mem⟩
  | @ownGroup id expression stored =>
      exact .inl ⟨by simp [Request.home, stored], by simp [Request.rank]⟩
  | @rule rule id goal expression =>
      refine .inl ⟨rfl, ?_⟩
      cases goal <;> simp [Request.rank]

theorem proper_of_path {root : GroupId} {goal : Goal} {request : Request}
    (path : ReflTransGen (Asks context memo) (.group root goal) request) : request.Proper memo := by
  rcases path.cases_tail with rfl | ⟨previous, -, asks⟩
  · trivial
  · exact asks.proper

/-- A sequence of requests stays within a group or leads to one that is read. -/
theorem stays_or_descends (consistent : memo.Consistent) {root : GroupId} {goal : Goal}
    (reached : ReflTransGen (Asks context memo) (.group root goal) first)
    (path : TransGen (Asks context memo) first second) :
    first.Stays memo second ∨ first.Descends memo second := by
  induction path with
  | single asks => exact asks.stays_or_descends consistent (proper_of_path reached)
  | tail before asks ih =>
      have proper := proper_of_path (reached.trans before.to_reflTransGen)
      rcases ih with ⟨home, rank⟩ | ⟨upper, middle, upper_eq, middle_eq, leads⟩
      · rcases asks.stays_or_descends consistent proper with
          ⟨next_home, next_rank⟩ | ⟨upper, lower, upper_eq, lower_eq, leads⟩
        · exact .inl ⟨home.trans next_home, Nat.lt_trans next_rank rank⟩
        · exact .inr ⟨upper, lower, home.trans upper_eq, lower_eq, leads⟩
      · rcases asks.stays_or_descends consistent proper with
          ⟨next_home, -⟩ | ⟨next, lower, next_eq, lower_eq, next_leads⟩
        · exact .inr ⟨upper, middle, upper_eq, next_home.symm.trans middle_eq, leads⟩
        · cases middle_eq.symm.trans next_eq
          exact .inr ⟨upper, lower, upper_eq, lower_eq, leads.trans next_leads⟩

/-- What the job of a root leads to is about groups below the root. -/
theorem leadsTo_of_asks (consistent : memo.Consistent) {root id : GroupId} {goal : Goal}
    {request : Request} (path : ReflTransGen (Asks context memo) (.group root goal) request)
    (home : request.home memo = some id) : ReflTransGen (memo.LeadsTo .logical) root id := by
  rcases reflTransGen_iff_eq_or_transGen.mp path with rfl | path
  · cases home
    exact .refl
  · rcases stays_or_descends consistent .refl path with
      ⟨same, -⟩ | ⟨upper, lower, upper_eq, lower_eq, leads⟩
    · cases same.trans home
      exact .refl
    · cases upper_eq
      cases lower_eq.symm.trans home
      exact leads.to_reflTransGen

/-- A circle of requests below a root leads through groups that read each other. -/
theorem not_acyclicBelow_of_circle (consistent : memo.Consistent) {root : GroupId} {goal : Goal}
    {request : Request} (reached : ReflTransGen (Asks context memo) (.group root goal) request)
    (circle : TransGen (Asks context memo) request request) :
    ¬ memo.AcyclicBelow .logical root := by
  intro acyclic
  rcases stays_or_descends consistent reached circle with
    ⟨-, rank⟩ | ⟨upper, lower, upper_eq, lower_eq, cycle⟩
  · exact Nat.lt_irrefl _ rank
  · cases upper_eq.symm.trans lower_eq
    exact acyclic upper (leadsTo_of_asks consistent reached upper_eq) cycle

end Asks

/-! ## Refused requests -/

namespace Agenda

variable {agenda after : Agenda} {id server : JobId} {job : Job} {requests : List Request}
  {failure : Failure}

theorem waits_of_awaits {waiter : JobId} {request : Request}
    (path : ReflTransGen agenda.Awaits waiter server) (serves : agenda.Serves server request) :
    ∃ first, agenda.Serves waiter first ∧ ReflTransGen agenda.Waits first request := by
  induction path using ReflTransGen.head_induction_on with
  | refl => exact ⟨request, serves, .refl⟩
  | head awaits _ ih =>
      rcases ih with ⟨next, next_serves, path⟩
      rcases live_of_awaits awaits with ⟨entry, live, awaited_mem⟩
      exact ⟨entry.request, ⟨entry, live, rfl⟩,
        .head ⟨_, entry, live, rfl, _, awaited_mem, next_serves⟩ path⟩

/-- A structural cycle is found where the job that would serve a request waits for the asking one. -/
theorem assignAll_refused (consistent : agenda.Consistent) {entry : Entry}
    (live : agenda.live? id = some entry)
    (assigned : agenda.assignAll id job requests = (after, .error failure))
    (structural : failure.kind = .structuralCycle) :
    ∃ request ∈ requests, failure = .waitCycle job.text request.text ∧
      ∃ server, agenda.Serves server request ∧ ReflTransGen agenda.Awaits server id := by
  induction requests generalizing agenda with
  | nil => cases assigned
  | cons request rest ih =>
      rw [assignAll] at assigned
      cases first_eq : agenda.assign id job request with
      | error refused =>
          rw [first_eq] at assigned
          cases assigned
          rw [assign] at first_eq
          split at first_eq
          · rename_i server active
            split at first_eq
            · rename_i waits
              cases first_eq
              refine ⟨request, List.mem_cons_self, rfl, server, consistent.serves active, ?_⟩
              rw [waitsFor_iff] at waits
              exact reflTransGen_iff_eq_or_transGen.mpr (waits.imp_left Eq.symm)
            · cases first_eq
          · rw [create] at first_eq
            split at first_eq
            · cases first_eq
              cases structural
            · cases first_eq
      | ok first =>
          rcases first with ⟨middle, served⟩
          rcases assign_spec consistent (lt_created live) first_eq with
            ⟨middle_consistent, enlarged, -⟩
          rw [first_eq] at assigned
          dsimp only at assigned
          cases rest_eq : middle.assignAll id job rest with
          | mk last outcome =>
              rw [rest_eq] at assigned
              cases outcome with
              | ok servers => cases assigned
              | error refused =>
                  cases assigned
                  rcases ih middle_consistent (enlarged.kept live) rest_eq with
                    ⟨other, other_mem, named, server, ⟨found, found_live, request_eq⟩, path⟩
                  rw [enlarged.awaits] at path
                  have old : ∃ before, agenda.live? server = some before := by
                    rcases reflTransGen_iff_eq_or_transGen.mp path with rfl | path
                    · exact ⟨entry, live⟩
                    · rcases TransGen.head'_iff.mp path with ⟨next, awaits, -⟩
                      rcases live_of_awaits awaits with ⟨before, before_live, -⟩
                      exact ⟨before, before_live⟩
                  rcases old with ⟨before, before_live⟩
                  have same := (enlarged.kept before_live).symm.trans found_live
                  rw [← Option.some.inj same] at request_eq
                  exact ⟨other, List.mem_cons_of_mem request other_mem, named, server,
                    ⟨before, before_live, request_eq⟩, path⟩

/-- Whatever is handed out was asked for by way of the root. -/
theorem Scheduled.asked {out : List JobId} {request root : Request}
    (scheduled : agenda.Scheduled out) (rooted : agenda.Rooted root)
    (handedOut : agenda.HandedOut id request) : ReflTransGen agenda.Waits root request := by
  rcases handedOut with ⟨entry, live, request_eq, -⟩
  rcases scheduled.crowned with ⟨crown, crowned⟩
  have path := awaited_by_root scheduled.consistent scheduled.acyclic crowned.asked live
  rcases waits_of_awaits path ⟨entry, live, request_eq⟩ with
    ⟨first, ⟨found, found_live, rfl⟩, waits⟩
  rcases rooted with ⟨rootId, root_eq, -, root_request⟩
  cases root_eq.symm.trans crowned.rooted
  rw [← root_request found_live]
  exact waits

/-- A structural cycle means that something asked for leads back to the asking job. -/
theorem suspend_refused {out : List JobId} {request : Request} (scheduled : agenda.Scheduled out)
    (running : agenda.failure = none) (handedOut : agenda.HandedOut id request)
    (failed : (agenda.settle id (.ok (.suspend job requests))).failure = some failure)
    (structural : failure.kind = .structuralCycle) :
    ∃ asked ∈ requests, ReflTransGen agenda.Waits asked request := by
  rcases handedOut with ⟨entry, live, request_eq, -⟩
  have serves : agenda.Serves id request := ⟨entry, live, request_eq⟩
  let lowered : Agenda := { agenda with outstanding := agenda.outstanding - 1 }
  have lowered_consistent : lowered.Consistent := scheduled.consistent.outstanding _
  have lowered_live : lowered.live? id = some entry := live
  have lowered_running : lowered.failure = none := running
  rw [show agenda.settle id (.ok (.suspend job requests)) = lowered.suspend id job requests
    from rfl] at failed
  cases assigned : lowered.assignAll id job requests with
  | mk middle outcome =>
      rcases @assignAll_frame lowered id job requests with ⟨entries, ready, active, middle_eq⟩
      rw [assigned] at middle_eq
      cases outcome with
      | error refused =>
          rw [suspend, assigned] at failed
          change (middle.fail refused).failure = some failure at failed
          rw [show middle = _ from middle_eq, fail] at failed
          simp only [lowered_running, Option.none_or, Option.some.injEq] at failed
          subst failed
          rcases assignAll_refused lowered_consistent lowered_live assigned structural with
            ⟨asked, asked_mem, -, server, server_serves, path⟩
          rcases @waits_of_awaits agenda _ _ _ path serves with ⟨first, first_serves, waits⟩
          rw [first_serves.unique server_serves] at waits
          exact ⟨asked, asked_mem, waits⟩
      | ok servers =>
          rcases assignAll_spec lowered_consistent (lt_created lowered_live) assigned with
            ⟨-, enlarged, absent, -⟩
          have parked_frame := @parked_frame middle id entry job servers
          rw [suspend_eq assigned (enlarged.kept lowered_live) absent, parked_frame.2.2.2.2.1,
            enlarged.failure, lowered_running] at failed
          cases failed

theorem next_failure (running : agenda.failure = none) {cancelled : Bool}
    (next_eq : agenda.next cancelled = (after, none)) (failed : after.failure = some failure) :
    failure.kind ≠ .structuralCycle := by
  have drained {left : Agenda} (jobs : List JobId) (before : left.failure = none)
      (take_eq : left.take jobs = (after, none)) : failure.kind ≠ .structuralCycle := by
    induction jobs with
    | nil =>
        rw [take] at take_eq
        split at take_eq
        · cases take_eq
          simp only [fail, before, Option.none_or, Option.some.injEq] at failed
          subst failed
          simp [Failure.kind]
        · cases take_eq
          rw [before] at failed
          cases failed
    | cons id rest ih =>
        rw [take] at take_eq
        split at take_eq
        · cases take_eq
        · exact ih take_eq
  rw [next] at next_eq
  split at next_eq
  · cases next_eq
    rw [running] at failed
    cases failed
  · split at next_eq
    · cases next_eq
      simp only [fail, running, Option.none_or, Option.some.injEq] at failed
      subst failed
      simp [Failure.kind]
    · exact drained agenda.ready running next_eq

theorem complete_running {entry : Entry} (live : agenda.live? id = some entry) :
    (agenda.complete id).failure = agenda.failure := by
  rcases @foldl_notify_frame (agenda.removed id entry.request) id entry.waiters with
    ⟨entries, ready, told_eq, -⟩
  rw [complete_eq live, told_eq]
  rfl

end Agenda

/-! ## Runs -/

namespace RunState

variable {context : Context} {Kept : Memo → Prop} {Done : Memo → RuleId → ExprId → Prop}
  {root : GroupId} {goal : Goal} {limit : Nat} {state after : RunState}

/--
A run between two steps, on a memo that had no flags. Only groups below the root have got any, and a
structural cycle is only reported if groups below the root read each other in a circle.
-/
structure Traced (context : Context) (Kept : Memo → Prop) (Done : Memo → RuleId → ExprId → Prop)
    (root : GroupId) (goal : Goal) (limit : Nat) (state : RunState) : Prop where
  invariant : state.Invariant context Kept Done root goal
  reached : Agenda.Reached limit (.group root goal) state.agenda []
  below : ∀ {id goal}, state.progress.memo.Reached id goal →
    ReflTransGen (state.progress.memo.LeadsTo .logical) root id
  circles : ∀ {failure}, state.agenda.failure = some failure → failure.kind = .structuralCycle →
    ¬ state.progress.memo.AcyclicBelow .logical root

namespace Traced

variable {taken : Agenda} {id : JobId} {job : Job} {cancelled : Bool} {failure : Failure}

/-- What waits in the agenda has been asked for by what it is needed for. -/
theorem asks_of_waits (traced : state.Traced context Kept Done root goal limit)
    (next_eq : state.agenda.next cancelled = (taken, some (id, job))) {first second : Request}
    (path : ReflTransGen taken.Waits first second) :
    ReflTransGen (Asks context state.progress.memo) first second := by
  have ordered := traced.invariant.orderly (Agenda.running_of_next next_eq)
  rcases Agenda.next_spec ordered.consistent next_eq with ⟨-, -, request, took⟩
  exact path.lift (fun request => request) fun _ _ waits => ordered.asks (took.waits.mp waits)

theorem advance (discipline : Discipline context goal Kept Done)
    (traced : state.Traced context Kept Done root goal limit) {record : Option StepRecord}
    (advance_eq : state.advance context = .ok (after, record)) :
    after.Traced context Kept Done root goal limit := by
  have invariant := (traced.invariant.advance discipline advance_eq).1
  have consistent := discipline.consistent traced.invariant.kept
  have after_consistent := discipline.consistent invariant.kept
  rw [RunState.advance] at advance_eq
  cases next_eq : state.agenda.next state.progress.cancelled with
  | mk taken handed =>
      rw [next_eq] at advance_eq
      cases handed with
      | none =>
          cases advance_eq
          refine ⟨invariant, traced.reached.rest next_eq, traced.below, ?_⟩
          intro failure failed structural
          cases running : state.agenda.failure with
          | none => exact (Agenda.next_failure running next_eq failed structural).elim
          | some earlier =>
              rw [Agenda.next_of_failure running] at next_eq
              cases next_eq
              exact traced.circles failed structural
      | some pair =>
          rcases pair with ⟨id, job⟩
          simp only [bind, Except.bind, pure, Except.pure] at advance_eq
          split at advance_eq
          · cases advance_eq
          · rename_i stepped step_eq
            rcases stepped with ⟨progress, outcome⟩
            cases advance_eq
            rcases traced.invariant.achieves discipline.toStable next_eq
              (fun _ _ => discipline.passed_over traced.invariant.kept) step_eq with ⟨took, achieves⟩
            have running := took.failure.trans (Agenda.running_of_next next_eq)
            have ordered := traced.invariant.orderly (Agenda.running_of_next next_eq)
            have handed := traced.reached.handOut next_eq
            have scheduled := handed.scheduled running
            have path := traced.asks_of_waits next_eq
              (scheduled.asked (took.rooted ordered.rooted) took.handedOut)
            have settled := handed.settle outcome List.mem_cons_self
            rw [List.erase_cons_head] at settled
            refine ⟨invariant, settled, ?_, ?_⟩
            · intro reached_id reached_goal reached
              have before : ReflTransGen (state.progress.memo.LeadsTo .logical) root reached_id := by
                rcases achieves.flags reached with earlier | request_eq
                · exact traced.below earlier
                · exact leadsTo_of_asks consistent path (by rw [request_eq, Request.home])
              exact before.lift (fun id => id) fun _ _ =>
                achieves.grows.leadsTo consistent after_consistent
            · intro failure failed structural
              rcases outcome with refused | (_ | ⟨next, requests⟩)
              · simp only [Agenda.settle, Agenda.fail, running, Option.none_or,
                  Option.some.injEq] at failed
                subst failed
                rcases Job.step_failure step_eq with kind | kind | kind <;>
                  rw [kind] at structural <;> cases structural
              · rcases took.handedOut with ⟨entry, live, -⟩
                have completed : (taken.settle id (.ok .done)).failure = taken.failure :=
                  @Agenda.complete_running { taken with outstanding := taken.outstanding - 1 } id
                    entry live
                cases (completed.trans running).symm.trans failed
              · rcases achieves.settles with ⟨memo_eq, -, -, asks, -⟩
                rcases Agenda.suspend_refused scheduled running took.handedOut failed structural with
                  ⟨asked, asked_mem, back⟩
                dsimp only at memo_eq ⊢
                rw [memo_eq]
                exact not_acyclicBelow_of_circle consistent path
                  (.head' (asks asked asked_mem) (traced.asks_of_waits next_eq back))

theorem cancel (traced : state.Traced context Kept Done root goal limit) :
    state.cancel.Traced context Kept Done root goal limit :=
  ⟨⟨traced.invariant.kept, traced.invariant.orderly⟩, traced.reached, traced.below, traced.circles⟩

theorem seeded {progress : Progress} {agenda : Agenda} (kept : Kept progress.memo)
    (unreached : ∀ id goal, ¬ progress.memo.Reached id goal)
    (seeded : (Agenda.empty limit).seed (.group root goal) = .ok agenda) :
    RunState.Traced context Kept Done root goal limit ⟨progress, agenda⟩ := by
  refine ⟨.seeded kept seeded, .seed seeded, fun reached => (unreached _ _ reached).elim, ?_⟩
  intro failure failed
  rw [Agenda.seed_eq seeded] at failed
  cases failed

/-- The outcome that a run ends with is the failure of its agenda. -/
theorem circle_of_finish (traced : state.Traced context Kept Done root goal limit)
    (finished : state.agenda.finish = .error failure) (structural : failure.kind = .structuralCycle) :
    ¬ state.progress.memo.AcyclicBelow .logical root := by
  rw [Agenda.finish] at finished
  split at finished
  · rename_i failed
    cases finished
    exact traced.circles failed structural
  · split at finished
    · cases finished
    · cases finished
      cases structural

end Traced

end RunState

namespace Memo

variable {rules : Rulebook} {catalog : Catalog} {config : SearchConfig} {memo : Memo}
  {root : GroupId} {report : RunReport}

/--
On a memo without flags, a run drives only groups below its root, and reports a structural cycle only
if some of them read each other in a circle.
-/
theorem Runs.traced {Kept : Memo → Prop} {Done : Memo → RuleId → ExprId → Prop}
    (discipline : Discipline (context rules catalog config) config.goal Kept Done) (kept : Kept memo)
    (unreached : ∀ id goal, ¬ memo.Reached id goal)
    (runs : memo.Runs rules catalog config root report) :
    (∀ {id goal}, report.memo.Reached id goal →
      ReflTransGen (report.memo.LeadsTo .logical) root id) ∧
      ∀ {failure}, report.outcome = .error failure → failure.kind = .structuralCycle →
        ¬ report.memo.AcyclicBelow .logical root := by
  rcases runs.cases with ⟨same, ⟨other, outcome_eq, kind_ne⟩, -⟩ | ⟨cancelled, agenda, early,
    middle, earlier, continued, late, state, later, seeded, early_eq, continued_eq, late_eq, rfl⟩
  · refine ⟨fun reached => (unreached _ _ (same ▸ reached)).elim, ?_⟩
    intro failure failed structural
    cases failed.symm.trans outcome_eq
    exact (kind_ne structural).elim
  · have start : RunState.Traced (context rules catalog config) Kept Done root config.goal
        config.maxJobs { memo.initialState config.maxJobs cancelled with agenda } :=
      .seeded kept unreached seeded
    have between := RunState.drive_keeps (fun traced => traced.advance discipline) start early_eq
    have still : continued.Traced (context rules catalog config) Kept Done root config.goal
        config.maxJobs := by
      rcases continued_eq with rfl | rfl
      · exact between
      · exact between.cancel
    have traced := RunState.drive_keeps (fun traced => traced.advance discipline) still late_eq
    exact ⟨traced.below, fun failed structural => traced.circle_of_finish failed structural⟩

/-- Below a group that has been driven to the goal, the plans of a covered memo can be counted. -/
theorem Covered.counted {top : Goal} (covered : memo.Covered) (layered : Layered top memo)
    (reached : memo.Reached root top) (kind : PlanKind) :
    ∃ space count, PlanSpace.build memo root kind = .ok (.ok space) ∧
      space.treeCount.2 = .ok count := by
  have acyclic := covered.acyclicBelow (layered.acyclicBelow reached) kind
  have exist (id : GroupId) (path : ReflTransGen (memo.LeadsTo kind) root id) :
      id < memo.groups.size :=
    (layered.reached_below reached (path.lift (fun id => id) fun _ _ => covered.leadsTo)).lt
  rcases PlanSpace.build_of_exist layered.built.consistent exist acyclic with ⟨space, built⟩
  rcases PlanSpace.counted_of_acyclic layered.built.consistent built acyclic with ⟨count, counted⟩
  exact ⟨space, count, built, counted⟩

/--
On a memo without flags, whatever the rules are: after a run that succeeds, no group below the root
reads itself through logical expressions. A run that reports a structural cycle leaves one behind
below its root. If the memo has held logical expressions only and the rules are the standard ones,
then a run that succeeds leaves plans of both kinds behind that can be counted.
-/
theorem search_cycles (built : memo.Built) (unreached : ∀ id goal, ¬ memo.Reached id goal)
    (runs : memo.Runs rules catalog config root report) :
    (report.outcome = .ok () → report.memo.AcyclicBelow .logical root) ∧
      (∀ failure, report.outcome = .error failure → failure.kind = .structuralCycle →
        ∃ id, ReflTransGen (report.memo.LeadsTo .logical) root id ∧
          TransGen (report.memo.LeadsTo .logical) id id) ∧
      (rules = .standard → (∀ expression ∈ memo.expressions, expression.operator.isLogical = true) →
        report.outcome = .ok () → ∀ kind, ∃ space count,
          PlanSpace.build report.memo root kind = .ok (.ok space) ∧
            space.treeCount.2 = .ok count) := by
  have started : Layered config.goal memo := .of_unreached built unreached
  refine ⟨?_, ?_, ?_⟩
  · intro succeeded
    have keeps := search_keeps layered_discipline started runs
    exact keeps.kept.acyclicBelow (keeps.reached succeeded)
  · intro failure failed structural
    have cyclic := (runs.traced layered_discipline started unreached).2 failed structural
    simp only [AcyclicBelow, not_forall, not_not] at cyclic
    rcases cyclic with ⟨id, path, cycle⟩
    exact ⟨id, path, cycle⟩
  · rintro rfl logical succeeded kind
    have covered : memo.Covered := .of_logical built.consistent
      fun stored => logical _ (Array.mem_of_getElem? stored)
    have keeps := search_keeps (covered_discipline Rules.covers_standard) ⟨started, covered⟩ runs
    exact keeps.kept.2.counted keeps.kept.1 (keeps.reached succeeded) kind

/-- The group of a scan holds a filter over itself as well. -/
def selfFiltered : Memo :=
  let scanned := (add empty (.logical (.scan ⟨"public", "a"⟩ [] none)) [] none).1
  match scanned.addTo 0 (.logical (.filter .truth)) [0] none with
  | .ok (memo, _) => memo
  | .error _ => scanned

theorem built_selfFiltered : selfFiltered.Built := by
  rw [selfFiltered]
  split
  · rename_i added
    exact .addTo (.add _ _ _ .empty) added
  · exact .add _ _ _ .empty

/-- The report of a search of the filter over itself. -/
def selfSearched :=
  tested (selfFiltered.search .standard .empty ⟨100, none, true⟩ 0 false).toOption
    (fun report => decide ((failureOf report.outcome).map Failure.kind = some .structuralCycle))
    (by decide +kernel)

theorem built_pairJoined : PlanSpace.pairJoined.Built :=
  .add _ _ _ (.add _ _ _ (.add _ _ _ .empty))

theorem untouched_pairJoined : PlanSpace.pairJoined.Untouched :=
  .of_mem (by decide) (by decide)

/-- The report of a search of the joined pair. -/
def pairSearched :=
  tested (PlanSpace.pairJoined.search .standard .empty ⟨100, none, true⟩ 2 false).toOption
    (fun report => decide (report.outcome = .ok () ∧ report.steps.length = 42 ∧
      report.counts.jobsCreated = 25)) (by decide +kernel)

/-- The standard rules join two tables in 42 steps of 25 jobs. -/
theorem search_pairJoined : ∃ report,
    PlanSpace.pairJoined.search .standard .empty ⟨100, none, true⟩ 2 false = .ok report ∧
      report.outcome = .ok () ∧ report.steps.length = 42 ∧ report.counts.jobsCreated = 25 := by
  rcases pairSearched with ⟨report, report_eq, facts⟩
  exact ⟨report, eq_ok_of_toOption report_eq, of_decide_eq_true facts⟩

/-- The join of two tables has plans that can be counted. A filter over itself is a cycle. -/
theorem search_cycles_pair :
    (∃ report, PlanSpace.pairJoined.search .standard .empty ⟨100, none, true⟩ 2 false = .ok report ∧
      ∀ kind, ∃ space count, PlanSpace.build report.memo 2 kind = .ok (.ok space) ∧
        space.treeCount.2 = .ok count) ∧
    ∃ report, selfFiltered.search .standard .empty ⟨100, none, true⟩ 0 false = .ok report ∧
      ∃ id, ReflTransGen (report.memo.LeadsTo .logical) 0 id ∧
        TransGen (report.memo.LeadsTo .logical) id id := by
  refine ⟨?_, ?_⟩
  · rcases search_pairJoined with ⟨report, report_eq, succeeded, -⟩
    refine ⟨report, report_eq, ?_⟩
    exact (search_cycles built_pairJoined untouched_pairJoined.unreached
      (.inl ⟨false, report_eq⟩)).2.2 rfl (by decide) succeeded
  · rcases selfSearched with ⟨report, searched, fails⟩
    rcases Option.map_eq_some_iff.mp (of_decide_eq_true fails) with ⟨failure, failed, structural⟩
    have report_eq := eq_ok_of_toOption searched
    refine ⟨report, report_eq, ?_⟩
    exact (search_cycles built_selfFiltered (unreached_of_mem (by decide))
      (.inl ⟨false, report_eq⟩)).2.1 failure (eq_error_of_failureOf failed) structural

end Memo

end Cascades
